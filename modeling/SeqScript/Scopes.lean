import SeqScript.Value.Datum

/-!
# Scopes

Variables live in frames. Every frame but a root has a parent, the frame it
stands in, and a name means the nearest binding on the way outwards. Frames are
numbered as they are made and never given up, so a function can keep the frame
it was created in. A parent is always made before its children; the walk
outwards therefore goes down in the numbers and ends.
-/

namespace SeqScript

/-- What a variable holds, and the type it was declared with, if any. -/
structure Binding where
  value : Value
  ty : Option Ty

/-- The variables of one scope, each name once. -/
structure Frame where
  bindings : List (String × Binding)
  parent : Option FrameId

namespace Frame

def find? (f : Frame) (name : String) : Option Binding := f.bindings.lookup name

/-- Rows of bindings with one of them set, in its old place if it has one. -/
def put (name : String) (b : Binding) : List (String × Binding) → List (String × Binding)
  | [] => [(name, b)]
  | (other, old) :: rest =>
    if other = name then (name, b) :: rest else (other, old) :: put name b rest

def set (f : Frame) (name : String) (b : Binding) : Frame :=
  { f with bindings := put name b f.bindings }

def names (f : Frame) : List String := f.bindings.map Prod.fst

end Frame

/-- All frames, by number. -/
structure Scopes where
  frames : Array Frame

namespace Scopes

def empty : Scopes := ⟨#[]⟩

/-- The number of frames. -/
def size (s : Scopes) : Nat := s.frames.size

/-- The parent of a frame, made before it. -/
def parent? (s : Scopes) (f : FrameId) : Option { p : FrameId // p < f } :=
  match s.frames[f]? with
  | none => none
  | some frame =>
    match frame.parent with
    | none => none
    | some p => if h : p < f then some ⟨p, h⟩ else none

/-- The binding of a name in one frame. -/
def local? (s : Scopes) (f : FrameId) (name : String) : Option Binding :=
  s.frames[f]?.bind fun frame => frame.find? name

-- ---------------------------------------------------------------------------
-- Making frames
-- ---------------------------------------------------------------------------

/-- A new frame without variables. -/
def push (s : Scopes) (parent : Option FrameId) : FrameId × Scopes :=
  (s.size, ⟨s.frames.push ⟨[], parent⟩⟩)

/-- A new frame that stands in no other. -/
def root (s : Scopes) : FrameId × Scopes := s.push none

/-- A new frame that stands in `f`. -/
def child (s : Scopes) (f : FrameId) : FrameId × Scopes := s.push (some f)

-- ---------------------------------------------------------------------------
-- Looking names up
-- ---------------------------------------------------------------------------

/-- The nearest frame, from `f` outwards, that binds a name. -/
def owner? (s : Scopes) (f : FrameId) (name : String) : Option FrameId :=
  if (s.local? f name).isSome then some f
  else
    match s.parent? f with
    | some ⟨p, _⟩ => s.owner? p name
    | none => none
termination_by f

/-- The nearest binding of a name. -/
def lookup? (s : Scopes) (f : FrameId) (name : String) : Option Binding :=
  (s.owner? f name).bind fun o => s.local? o name

/-- The value of a name. -/
def get? (s : Scopes) (f : FrameId) (name : String) : Option Value :=
  (s.lookup? f name).map Binding.value

/-- The declared type of a name. -/
def declared? (s : Scopes) (f : FrameId) (name : String) : Option Ty :=
  (s.lookup? f name).bind Binding.ty

/-- The number of frames from `f` to its root. -/
def depth (s : Scopes) (f : FrameId) : Nat :=
  match s.parent? f with
  | some ⟨p, _⟩ => s.depth p + 1
  | none => 1
termination_by f

-- ---------------------------------------------------------------------------
-- Setting names
-- ---------------------------------------------------------------------------

/-- Binds a name in one frame, in place of what it meant there. -/
def define (s : Scopes) (f : FrameId) (name : String) (value : Value) (ty : Option Ty) : Scopes :=
  ⟨s.frames.modify f fun frame => frame.set name ⟨value, ty⟩⟩

/-- Gives the nearest binding of a name a new value and keeps its type. A name
that is not bound is bound in `f`, without a type. Says whether the name was
bound. -/
def assign (s : Scopes) (f : FrameId) (name : String) (value : Value) : Bool × Scopes :=
  match s.owner? f name with
  | some o => (true, s.define o name value ((s.local? o name).bind Binding.ty))
  | none => (false, s.define f name value none)

-- ---------------------------------------------------------------------------
-- Text
-- ---------------------------------------------------------------------------

/-- The names of a frame in order, and how deep it stands. -/
def frameLabel (s : Scopes) (f : FrameId) : String :=
  let names := ((s.frames[f]?.map Frame.names).getD []).mergeSort
  "Environment \x7b names: [" ++ ", ".intercalate (names.map Text.quoted) ++ "], depth: "
    ++ toString (s.depth f) ++ " \x7d"

end Scopes

/-- A type in the text of a binding. -/
def Ty.label : Ty → String
  | .int => "Int"
  | .float => "Float"
  | .bool => "Bool"
  | .string => "String"
  | .array t => "Array(" ++ t.label ++ ")"
  | .list t => "List(" ++ t.label ++ ")"
  | .func => "Func"

/-- A binding as text. -/
def Binding.label (h : Heap) (b : Binding) : String :=
  let ty := match b.ty with
    | some t => "Some(" ++ t.label ++ ")"
    | none => "None"
  "Binding \x7b value: " ++ (h.datum b.value).label ++ ", ty: " ++ ty ++ " \x7d"

end SeqScript
