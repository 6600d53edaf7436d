import Kinetics.Program.Literal
import Kinetics.Proofs.Grid.Basic

/-!
# Kinetics.Proofs.Grid.Code

The array expressions of a generated program: what they look like and what they mean. Values are
arrays of numbers or truth values, and a number is whatever has a zero.
-/

namespace Kinetics

namespace Grid

open Program

inductive Cell (R : Type) where
  | number (x : R)
  | truth (b : Bool)

abbrev Environment (R : Type) :=
  String → Option (Grid (Cell R))

inductive Code where
  | name (x : String)
  | item (x : String) (k : Nat)
  | slice (x : String) (start stop : Nat)
  | reshape (c : Code) (extents : List Nat)
  | front (x : String) (n : Nat)
  | back (x : String) (n : Nat)
  | ravel (c : Code)
  | flattened (c : Code)
  | joined (c d : Code)
  | pair (c d : Code)
  | zero
  | false
  | zerosLike (c : Code)
  | trues (extents : List Nat)
  | falses (extents : List Nat)
  | truesFor (x : String)

namespace Code

def text : Code → String
  | name x => x
  | item x k => x ++ "[" ++ toString k ++ "]"
  | slice x start stop => x ++ "[" ++ toString start ++ ":" ++ toString stop ++ "]"
  | reshape c extents => c.text ++ ".reshape(" ++ shapeLiteral extents ++ ")"
  | front x n => x ++ "[..., :" ++ toString n ++ "]"
  | back x n => x ++ "[..., " ++ toString n ++ ":]"
  | ravel c => "np.ravel(" ++ c.text ++ ")"
  | flattened c => c.text ++ ".ravel()"
  | joined c d => "np.concatenate([" ++ c.text ++ ", " ++ d.text ++ "], axis=-1)"
  | pair c d => "np.array([" ++ c.text ++ ", " ++ d.text ++ "])"
  | zero => "0.0"
  | false => "False"
  | zerosLike c => "np.zeros_like(" ++ c.text ++ ")"
  | trues extents => "np.ones(" ++ shapeLiteral extents ++ ", dtype=bool)"
  | falses extents => "np.zeros(" ++ shapeLiteral extents ++ ", dtype=bool)"
  | truesFor x => "np.ones(" ++ x ++ ".size, dtype=bool)"

section Text

variable (x : String) (c d : Code) (k n start stop : Nat) (extents : List Nat)

@[simp] theorem text_name : (name x).text = x := rfl

@[simp] theorem text_item : (item x k).text = x ++ "[" ++ toString k ++ "]" := rfl

@[simp] theorem text_slice :
    (slice x start stop).text = x ++ "[" ++ toString start ++ ":" ++ toString stop ++ "]" := rfl

@[simp] theorem text_reshape :
    (reshape c extents).text = c.text ++ ".reshape(" ++ shapeLiteral extents ++ ")" := rfl

@[simp] theorem text_front : (front x n).text = x ++ "[..., :" ++ toString n ++ "]" := rfl

@[simp] theorem text_back : (back x n).text = x ++ "[..., " ++ toString n ++ ":]" := rfl

@[simp] theorem text_ravel : (ravel c).text = "np.ravel(" ++ c.text ++ ")" := rfl

@[simp] theorem text_flattened : (flattened c).text = c.text ++ ".ravel()" := rfl

@[simp] theorem text_joined :
    (joined c d).text = "np.concatenate([" ++ c.text ++ ", " ++ d.text ++ "], axis=-1)" := rfl

@[simp] theorem text_pair : (pair c d).text = "np.array([" ++ c.text ++ ", " ++ d.text ++ "])" := rfl

@[simp] theorem text_zero : zero.text = "0.0" := rfl

@[simp] theorem text_false : Code.false.text = "False" := rfl

@[simp] theorem text_zerosLike : (zerosLike c).text = "np.zeros_like(" ++ c.text ++ ")" := rfl

@[simp] theorem text_trues :
    (trues extents).text = "np.ones(" ++ shapeLiteral extents ++ ", dtype=bool)" := rfl

@[simp] theorem text_falses :
    (falses extents).text = "np.zeros(" ++ shapeLiteral extents ++ ", dtype=bool)" := rfl

@[simp] theorem text_truesFor :
    (truesFor x).text = "np.ones(" ++ x ++ ".size, dtype=bool)" := rfl

end Text

variable {R : Type} [Zero R]

def eval (env : Environment R) : Code → Option (Grid (Cell R))
  | name x => env x
  | item x k => (env x).bind (Grid.item k)
  | slice x start stop => (env x).bind (Grid.slice start stop)
  | reshape c extents => (c.eval env).bind (Grid.reshape extents)
  | front x n => (env x).bind (Grid.front n)
  | back x n => (env x).bind (Grid.back n)
  | ravel c => (c.eval env).map Grid.ravel
  | flattened c => (c.eval env).map Grid.ravel
  | joined c d => (c.eval env).bind fun a => (d.eval env).bind a.joined
  | pair c d => (c.eval env).bind fun a => (d.eval env).bind a.pair
  | zero => some (scalar (.number 0))
  | false => some (scalar (.truth .false))
  | zerosLike c => (c.eval env).map fun a => constant a.extents (.number 0)
  | trues extents => some (constant extents (.truth true))
  | falses extents => some (constant extents (.truth .false))
  | truesFor x => (env x).map fun a => constant [a.extents.prod] (.truth true)

def concatenatedText (cs : List Code) : String :=
  "np.concatenate([" ++ Text.joinWith ", " (cs.map text) ++ "])"

theorem concatenatedText_eq (cs : List Code) :
    concatenatedText cs = "np.concatenate([" ++ Text.joinWith ", " (cs.map text) ++ "])" := rfl

def concatenated (env : Environment R) (cs : List Code) : Option (Grid (Cell R)) :=
  (cs.mapM (eval env)).bind concatenate

end Code

/-- An assignment to a part of an array. -/
inductive Update where
  | item (k : Nat) (c : Code)
  | slice (start stop : Nat) (c : Code)

namespace Update

variable {R : Type} [Zero R]

def text (x : String) : Update → String
  | item k c => x ++ "[" ++ toString k ++ "] = " ++ c.text
  | slice start stop c => x ++ "[" ++ toString start ++ ":" ++ toString stop ++ "] = " ++ c.text

def run (env : Environment R) (a : Grid (Cell R)) : Update → Option (Grid (Cell R))
  | item k c => (c.eval env).bind fun v => a.setItem k v
  | slice start stop c => (c.eval env).bind fun v => a.setSlice start stop v

def runAll (env : Environment R) (a : Grid (Cell R)) : List Update → Option (Grid (Cell R))
  | [] => some a
  | u :: us => (u.run env a).bind fun a => runAll env a us

theorem runAll_append (env : Environment R) (a : Grid (Cell R)) (us vs : List Update) :
    runAll env a (us ++ vs) = (runAll env a us).bind fun b => runAll env b vs := by
  induction us generalizing a with
  | nil => rfl
  | cons u us ih =>
    rw [List.cons_append, runAll, runAll, Option.bind_assoc]
    simp only [ih]

end Update

end Grid

end Kinetics
