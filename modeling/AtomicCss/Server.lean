import AtomicCss.Engine.Actions

/-!
# Rendering pages

A page is what a rendering made, with a capture of what its engine has injected. A server gives
every page an engine of its own; the other two functions render with an engine that is shared.
-/

namespace AtomicCss

/-- A rendered page. -/
structure Page (α : Type) where
  body : α
  css : Capture

namespace Page

def head {α : Type} (p : Page α) : String := p.css.head

def map {α β : Type} (f : α → β) (p : Page α) : Page β := ⟨f p.body, p.css⟩

end Page

/-- Renders with an engine and takes a capture, whether the rendering fails or not. -/
def renderStatic {α : Type} (render : Action α) : Action (Page (Except StyleFailure α)) := do
  let body ← render.attempt
  pure ⟨body, ← Engine.capture⟩

/-- Renders with an engine and takes a capture if the rendering does not fail. -/
def tryRenderStatic {α : Type} (render : Action α) : Action (Page α) := do
  let body ← render
  pure ⟨body, ← Engine.capture⟩

/-- The number of lines of a text; a line end at the end begins no line. -/
def lineCount (text : String) : Nat :=
  let ends := text.toList.count '\n'
  if text.toList.getLast?.all (· == '\n') then ends else ends + 1

/-- Renders pages, each with an engine of its own. -/
structure Server where
  options : Options

namespace Server

def standard : Server := ⟨Options.standard⟩

def engine (s : Server) : Engine := Engine.synthetic s.options

def render {α : Type} (s : Server) (render : Action α) : Outcome (Page α) :=
  (do
    Action.report [.rendering s.options.mode]
    let page ← tryRenderStatic render
    Action.report [.rendered (lineCount page.css.contents)]
    pure page : Action (Page α)) s.engine

end Server

end AtomicCss
