import CommandScript.Value.Basic
import CommandScript.Names
/-!
# CommandScript — frames and scopes

A scope is a frame and the chain of frames above it. Names are looked up from the
inside out; an assignment goes to the innermost frame that has the name, or where
none has it to the frame it is made in.

Frames are kept in one store and refer to the frame above by its number. A frame
is made after the frame above it, so numbers fall along a chain and a chain is no
longer than the number it begins with.
-/

namespace CommandScript

/-- The number of a frame in its store. -/
abbrev FrameId := Nat

/-- Variables, and the frame above. -/
structure Frame where
  vars : Names Value := {}
  up : Option FrameId := none
  /-- The frame of a run or of a call, and not of a block inside one. -/
  root : Bool := false
  deriving Inhabited

/-- The store of frames. -/
structure Frames where
  all : Array Frame := #[]

namespace Frames

/-- One root frame. -/
def first : Frames := ⟨#[{ root := true }]⟩

/-- The frame of a number. -/
def frame (fs : Frames) (id : FrameId) : Frame := fs.all[id]?.getD {}

/-- The variables of a frame. -/
def vars (fs : Frames) (id : FrameId) : Names Value := (fs.frame id).vars

/-- Frames from one outwards, at most a number of them. -/
def chainWithin (fs : Frames) : Nat → FrameId → List FrameId
  | 0, _ => []
  | n + 1, id => id :: ((fs.frame id).up.map (chainWithin fs n)).getD []

/-- Frames from one outwards. -/
def chain (fs : Frames) (id : FrameId) : List FrameId := fs.chainWithin (id + 1) id

/-- A new frame below one, with its number. -/
def child (fs : Frames) (id : FrameId) (root : Bool) : FrameId × Frames :=
  (fs.all.size, ⟨fs.all.push { up := some id, root }⟩)

/-- Write the variables of a frame. -/
def setVars (fs : Frames) (id : FrameId) (vars : Names Value) : Frames :=
  ⟨fs.all.modify id fun f => { f with vars }⟩

/-- Give a variable of a frame a value. -/
def set (fs : Frames) (id : FrameId) (name : String) (v : Value) : Frames :=
  fs.setVars id ((fs.vars id).insert name v)

/-- The innermost frame that has a name. -/
def owner? (fs : Frames) (id : FrameId) (name : String) : Option FrameId :=
  (fs.chain id).find? fun f => (fs.vars f).has name

/-- A name is visible. -/
def has (fs : Frames) (id : FrameId) (name : String) : Bool := (fs.owner? id name).isSome

/-- The value of a name; one that is not visible has none, and reads as nil. -/
def get (fs : Frames) (id : FrameId) (name : String) : Value :=
  ((fs.owner? id name).bind fun f => (fs.vars f).get? name).getD .nil

/-- Assign to a name. -/
def assign (fs : Frames) (id : FrameId) (name : String) (v : Value) : Frames :=
  fs.set ((fs.owner? id name).getD id) name v

/-- Every visible name with its value: outer frames first, a shadowed name in its
outer place with its inner value. -/
def visible (fs : Frames) (id : FrameId) : Names Value :=
  (fs.chain id).reverse.foldl (fun names f => names.update (fs.vars f)) {}

end Frames

end CommandScript
