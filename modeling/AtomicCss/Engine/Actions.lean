import AtomicCss.Declaration
import AtomicCss.Digest
import AtomicCss.Engine.Basic
import AtomicCss.Keyframes
import AtomicCss.Theme
import AtomicCss.ClassMap
import AtomicCss.Capture

/-!
# What an engine does

An engine writes rules, compiles declarations into class maps, and takes captures and is told of
them.
-/

namespace AtomicCss

/-! ## Writing rules

The actions that send rules to the sheet: the rule of a class, a rule without a class, and an
animation. What is remembered is remembered only after the sheet has taken the rule.
-/

/-- The class of a property with a value: the digests of the name and of the value's text. -/
def classId (name : String) (value : Value) : String :=
  "c" ++ Digest.Purpose.property.digest name ++ Digest.Purpose.value.digest value.render

/-- The name of an animation by its number. -/
def animationName (number : Nat) : String :=
  "a" ++ Digest.Purpose.animation.digest (toString number)

namespace Engine

/-- Writes a rule at the front of the sheet. -/
def insertRule (rule : String) : Action Unit := fun e =>
  let (sheet, refusal) := e.sheet.insert rule 0
  let e' := { e with sheet }
  match refusal with
  | none => ⟨.ok (), e', e.sheet.insertionEvents rule⟩
  | some refusal => ⟨.error (.refused refusal), e', [.ruleRefused rule refusal]⟩

/-- Gives a property with a value its class, and writes the rule unless it has been written. -/
def inject (suffix name : String) (value : Value) : Action String := do
  let id := classId name value
  if ← Action.look (·.isInjected id) then
    Action.report [.classKnown id]
  else
    let rule := Rule.ofClass id suffix name value
    insertRule rule
    Action.report [.ruleInserted id rule]
    Action.change fun e => { e with injected := e.injected.insert id }
  pure id

/-- Writes a rule that belongs to no class, once. -/
def injectGlobal (rule : String) : Action Unit := do
  if ← Action.look (·.globals.contains rule) then pure ()
  else
    insertRule rule
    Action.change fun e => { e with globals := e.globals.insert rule }
    Action.report [.globalInserted rule]

/-- Writes theme variables as a rule for a selector, once. -/
def injectTheme (selector : String) (theme : Theme) : Action Unit :=
  injectGlobal (theme.rule selector)

/-- Writes an animation and gives its name, which is made from the number of animations written. -/
def injectKeyframes (keyframes : Keyframes) : Action String := do
  let name ← Action.look fun e => animationName e.animations
  Action.report (keyframes.skipped.map fun s => .valueSkipped s.1 s.2)
  insertRule (keyframes.rule name)
  Action.change fun e => { e with animations := e.animations + 1 }
  Action.report [.keyframesInserted name]
  pure name

/-! ## Compiling declarations

A declaration is transformed and its entries are turned into classes, first to last. An entry under
a pseudo-selector that holds a declaration is a block: the declaration is transformed and compiled
in its place, its classes hold in that state only. A block inside a block is a failure.
-/

/-- The part of a class map's key and of a rule's selector that tells the state. -/
def suffix : Option Pseudo → String
  | none => ""
  | some p => p.key

/-- The block that an entry is: a pseudo-selector that holds a declaration. -/
def block? (name : String) : Value → Option (Pseudo × Declaration)
  | .nested d => (Pseudo.ofKey? name).map (·, d)
  | _ => none

/-- Compiles entries in a state into a class map; `block` compiles the blocks among them. -/
def compileEntries (block : Pseudo → Declaration → ClassMap → Action ClassMap)
    (state : Option Pseudo) : List (String × Value) → ClassMap → Action ClassMap
  | [], classes => pure classes
  | (name, value) :: rest, classes =>
    if value.isNull then compileEntries block state rest classes
    else
      match block? name value with
      | some (p, d) => do
        let classes ← block p d classes
        compileEntries block state rest classes
      | none => do
        let id ← inject (suffix state) name value
        compileEntries block state rest (classes.insert (name ++ suffix state) id)

/-- Compiles the declaration of a block, in which there is no further block. -/
def compileBlock (outer : Pseudo) (d : Declaration) (classes : ClassMap) : Action ClassMap := do
  let entries ← Action.look fun e => (e.transform d).entries
  compileEntries (fun inner _ _ => Action.fail (.invalidNesting outer inner)) (some outer) entries
    classes

def compileClasses (d : Declaration) : Action ClassMap := do
  let entries ← Action.look fun e => (e.transform d).entries
  compileEntries compileBlock none entries ClassMap.empty

/-- The values of a declaration in place of classes; blocks stand as they are. -/
def passThrough (e : Engine) (d : Declaration) : ClassMap :=
  ClassMap.ofList
    (((e.transform d).entries.filter fun p => !p.2.isNull).map fun p => (p.1, p.2.render))

def compile (d : Declaration) : Action ClassMap := do
  let mode ← Action.look (·.options.mode)
  Action.report [.compiling d.size mode]
  if mode = .noop then Action.look (·.passThrough d) else compileClasses d

/-- Compiles named declarations, first to last. -/
def compileAll : List (String × Declaration) → Action (List (String × ClassMap))
  | [] => pure []
  | (name, d) :: rest => do
    let classes ← compile d
    let others ← compileAll rest
    pure ((name, classes) :: others)

/-- Compiles named declarations into a table of class maps. -/
def create (namespaces : List (String × Declaration)) : Action (Table ClassMap) := do
  pure (Table.ofList (← compileAll namespaces))

/-- A declaration as the value of a style attribute; blocks and other values that are not scalar are
left out. -/
def inlineStyle (e : Engine) (d : Declaration) : String := Rule.inline (e.transform d)

/-! ## Capturing and rehydrating

An engine's sheet and identifiers can be captured, and an engine can be told that identifiers need
not be written. Neither writes a rule.
-/

/-- The sheet's text and the identifiers injected so far. -/
def snapshot (e : Engine) : Capture := ⟨e.sheet.contents, e.injected.items⟩

/-- Takes a capture. -/
def capture : Action Capture := do
  let c ← Action.look snapshot
  Action.report [.captured c.ids.length c.contents.utf8ByteSize]
  pure c

/-- Makes identifiers known without writing their rules. -/
def seed (ids : List String) : Action Unit := do
  let before ← Action.look (·.injected.size)
  Action.change fun e => { e with injected := e.injected.insertAll ids }
  let after ← Action.look (·.injected.size)
  Action.report [.rehydrated (after - before)]

/-- Makes the identifiers of a capture known. -/
def rehydrate (c : Capture) : Action Unit := seed c.ids

/-- Reads a capture from JSON text and makes its identifiers known. -/
def rehydrateText (text : String) : Action Unit := do
  rehydrate (← Action.ofExcept ((Capture.parse text).mapError .unreadable))

end Engine

end AtomicCss
