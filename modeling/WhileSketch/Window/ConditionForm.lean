import WhileSketch.Logic.ConditionText
import WhileSketch.Synthesis.Session
import WhileSketch.Window.Widget

/-! The form in which the conditions on a program are stated. -/

namespace WhileSketch

inductive Role where
  | pre
  | post
  | invariant
  deriving DecidableEq

def Role.title : Role → String
  | pre => "Pre-Condition"
  | post => "Post-Condition"
  | invariant => "Loop-Invariant"

structure PerRole (α : Type) where
  pre : α
  post : α
  invariant : α

namespace PerRole

variable {α : Type}

def get (p : PerRole α) : Role → α
  | .pre => p.pre
  | .post => p.post
  | .invariant => p.invariant

def set (p : PerRole α) (r : Role) (a : α) : PerRole α :=
  match r with
  | .pre => { p with pre := a }
  | .post => { p with post := a }
  | .invariant => { p with invariant := a }

def map {β : Type} (f : α → β) (p : PerRole α) : PerRole β :=
  ⟨f p.pre, f p.post, f p.invariant⟩

def toList (p : PerRole α) : List α :=
  [p.pre, p.post, p.invariant]

end PerRole

/-- A condition and the text in which it was stated. -/
structure Stated where
  text : String
  condition : Condition

def Stated.trivial : Stated := ⟨"True", .bool true⟩

/-- The conditions that have been stated, and the boxes in which they are typed. -/
structure ConditionForm where
  stated : PerRole Stated
  boxes : Pane (PerRole String)

namespace ConditionForm

def blank : ConditionForm :=
  ⟨⟨.trivial, .trivial, .trivial⟩, .unopened⟩

def specification (f : ConditionForm) : Specification :=
  ⟨f.stated.pre.condition.eval, f.stated.post.condition.eval, f.stated.invariant.condition.eval⟩

def openBoxes (f : ConditionForm) : ConditionForm :=
  { f with boxes := f.boxes.openWith (f.stated.map Stated.text) }

def closeBoxes (f : ConditionForm) : ConditionForm :=
  { f with boxes := f.boxes.close }

def type (f : ConditionForm) (r : Role) (text : String) : ConditionForm :=
  { f with boxes := f.boxes.modify (·.set r text) }

def stating (r : Role) (text : String) : Notice :=
  .success (r.title ++ ": \"" ++ text ++ "\" has been set successfully.\n")

/-- States the condition in a box, and says whether it is one. -/
def state (f : ConditionForm) (r : Role) : Option (ConditionForm × Notice) :=
  f.boxes.content?.map fun boxes =>
    let text := Text.trim (boxes.get r)
    match ConditionText.read text with
    | .ok c => ({ f with stated := f.stated.set r ⟨text, c⟩ }, stating r text)
    | .error e => (f, .failure ("Error: Invalid " ++ r.title ++ ": " ++ e.message ++ "\n"))

def reset (f : ConditionForm) (r : Role) : Option (ConditionForm × Notice) :=
  f.boxes.content?.map fun boxes =>
    let t := Stated.trivial
    (⟨f.stated.set r t, .shown (boxes.set r t.text)⟩, stating r t.text)

end ConditionForm

end WhileSketch
