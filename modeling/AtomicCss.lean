import AtomicCss.ClassMap
import AtomicCss.Engine.Actions
import AtomicCss.Keyframes
import AtomicCss.Server
import AtomicCss.Sheet
import AtomicCss.Table.Edit
import AtomicCss.Proofs.Capture.Head
import AtomicCss.Proofs.Capture.Truncation
import AtomicCss.Proofs.ClassMap.ClassList
import AtomicCss.Proofs.Css.Joining
import AtomicCss.Proofs.Css.Parting
import AtomicCss.Proofs.Declaration.History
import AtomicCss.Proofs.Declaration.PropertyName
import AtomicCss.Proofs.Declaration.Reading
import AtomicCss.Proofs.Digest
import AtomicCss.Proofs.Engine.Animations
import AtomicCss.Proofs.Engine.Growth
import AtomicCss.Proofs.Engine.Leader
import AtomicCss.Proofs.Engine.Mirroring
import AtomicCss.Proofs.Engine.Namespaces
import AtomicCss.Proofs.Engine.Noop
import AtomicCss.Proofs.Engine.Rehydration
import AtomicCss.Proofs.Engine.Rejecting
import AtomicCss.Proofs.Engine.Result
import AtomicCss.Proofs.Engine.Renderers
import AtomicCss.Proofs.Engine.Reordering
import AtomicCss.Proofs.Engine.Resuming
import AtomicCss.Proofs.Engine.Variables
import AtomicCss.Proofs.Transform.Expansion
import AtomicCss.Proofs.Theme.Naming
import AtomicCss.Proofs.Transform.NormalForm
