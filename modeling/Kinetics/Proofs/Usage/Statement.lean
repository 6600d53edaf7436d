import Kinetics.Proofs.Hygiene.Program
import Kinetics.Proofs.Usage.Words

/-!
# Kinetics.Proofs.Usage.Statement

The names that statements read. They are known, being names of the machinery or words of the
language, or they come from somewhere: statements are supplied if each one reads only what is known,
what is given, and what those before it assign.
-/

namespace Kinetics

namespace Program

namespace Statement

/-- The names behind `for`, which stand for one thing after the other. -/
def loopNames (ws : List String) : List String :=
  (ws.zip ws.tail).filterMap fun p => if p.1 = "for" then some p.2 else none

/-- The names that a line reads and does not run over itself. -/
def codeReads (code : String) : List String :=
  (Scan.words code).filter fun w => w ∉ loopNames (Scan.words code)

/-- The parameters of a function that a header defines. -/
def parameters (header : String) : List String :=
  match Scan.words header with
  | word :: _ :: ps => if word = "def" then ps else []
  | _ => []

def headerReads (header : String) : List String :=
  if (Scan.words header).head? = some "def" then [] else codeReads header

/-- Assigning a part of an array reads the array. -/
def partReads (place : Place) : List String :=
  if place.positions.isEmpty then [] else [place.name]

mutual

/-- The names that a statement reads. -/
def reads : Statement → List String
  | .blank => []
  | .line code => codeReads code
  | .assign place value => partReads place ++ codeReads value
  | .read place _ => partReads place ++ ["_value", "parameter_table"]
  | .store _ row => "result" :: codeReads row
  | .block header body =>
    headerReads header ++ (readsBy body).filter fun w => w ∉ parameters header

def readsBy : List Statement → List String
  | [] => []
  | s :: ss => reads s ++ readsBy ss

end

/-- A name that the program brings along, or a word of the language. -/
def Known (x : String) : Prop :=
  x ∈ machineryNames ∨ x ∈ reservedNames

instance (x : String) : Decidable (Known x) :=
  inferInstanceAs (Decidable (_ ∨ _))

/-- The statement reads nothing of the model. -/
def Idle (st : Statement) : Prop :=
  ∀ x ∈ st.reads, Known x

instance (st : Statement) : Decidable st.Idle :=
  inferInstanceAs (Decidable (∀ x ∈ st.reads, Known x))

variable {code value x : String} {place : Place} {ss ts : List Statement} {st : Statement}

theorem words_of_codeReads (h : x ∈ codeReads code) : x ∈ Scan.words code :=
  (List.mem_filter.1 h).1

theorem targetsBy_append : targetsBy (ss ++ ts) = targetsBy ss ++ targetsBy ts := by
  induction ss with
  | nil => rfl
  | cons s ss ih => simp [targetsBy, ih]

theorem mem_readsBy : x ∈ readsBy ss ↔ ∃ st ∈ ss, x ∈ reads st := by
  induction ss with
  | nil => simp [readsBy]
  | cons s ss ih => simp [readsBy, ih]

theorem reads_line : (Statement.line code).reads = codeReads code := rfl

theorem reads_store {key : ParameterIndex} :
    (Statement.store key value).reads = "result" :: codeReads value := rfl

theorem words_of_line (h : x ∈ (Statement.line code).reads) : x ∈ Scan.words code := by
  rw [reads_line] at h
  exact words_of_codeReads h

theorem idle_line (h : ∀ w ∈ Scan.words code, Known w) : Idle (.line code) :=
  fun _ hx => h _ (words_of_line hx)

theorem reads_define : (define x value).reads = codeReads value := rfl

theorem words_of_define {name : String} (h : x ∈ (define name value).reads) :
    x ∈ Scan.words value := by
  rw [reads_define] at h
  exact words_of_codeReads h

theorem idle_define (h : ∀ w ∈ Scan.words value, Known w) : Idle (define x value) :=
  fun _ hx => h _ (words_of_define hx)

end Statement

open Statement Scan

/-- A line that does not run over anything reads all of its words. -/
theorem Statement.codeReads_eq {code : String} (h : "for" ∉ words code) :
    codeReads code = words code := by
  have hnone : loopNames (words code) = [] := by
    refine List.filterMap_eq_nil_iff.2 fun p hp => if_neg ?_
    rintro hfor
    exact h (hfor ▸ (List.of_mem_zip hp).1)
  simp [codeReads, hnone]

theorem known_np {ws : List String} (h : ∀ w ∈ ws, w = "np") : ∀ w ∈ ws, Known w := by
  intro w hw
  rw [h w hw]
  decide

/-- The statements read nothing but these names and what is known. -/
def Asks (known : List String) (ss : List Statement) : Prop :=
  ∀ st ∈ ss, ∀ x ∈ st.reads, Known x ∨ x ∈ known

section Asks

variable {known known' : List String} {ss ts : List Statement} {st : Statement}

theorem Asks.mono (h : Asks known ss) (hk : known ⊆ known') : Asks known' ss :=
  fun st hst x hx => (h st hst x hx).imp_right (@hk x)

theorem Asks.append (hs : Asks known ss) (ht : Asks known ts) : Asks known (ss ++ ts) :=
  fun st hst => (List.mem_append.1 hst).elim (hs st) (ht st)

theorem Asks.cons (h : ∀ x ∈ st.reads, Known x ∨ x ∈ known) (hs : Asks known ss) :
    Asks known (st :: ss) :=
  List.forall_mem_cons.2 ⟨h, hs⟩

theorem idle_asks (h : st.Idle) : ∀ x ∈ st.reads, Known x ∨ x ∈ known :=
  fun x hx => .inl (h x hx)

theorem asks_idle (h : ∀ st ∈ ss, st.Idle) : Asks known ss :=
  fun st hst x hx => .inl (h st hst x hx)

end Asks

section Supplied

/-- Each statement reads nothing but what is known, what is given, and what is assigned before. -/
def Supplied (given : List String) : List Statement → Prop
  | [] => True
  | st :: ss => (∀ x ∈ st.reads, Known x ∨ x ∈ given) ∧ Supplied (given ++ st.targets) ss

variable {given given' : List String} {ss ts : List Statement}

theorem Supplied.mono (h : Supplied given ss) (hg : given ⊆ given') : Supplied given' ss := by
  induction ss generalizing given given' with
  | nil => trivial
  | cons st ss ih =>
    exact ⟨fun x hx => (h.1 x hx).imp_right (@hg x),
      ih h.2 (List.append_subset.2 ⟨fun _ hx => List.mem_append_left _ (hg hx),
        List.subset_append_right _ _⟩)⟩

theorem Supplied.append (hs : Supplied given ss) (ht : Supplied (given ++ targetsBy ss) ts) :
    Supplied given (ss ++ ts) := by
  induction ss generalizing given with
  | nil => simpa [targetsBy] using ht
  | cons st ss ih =>
    refine ⟨hs.1, ih hs.2 ?_⟩
    rwa [List.append_assoc]

theorem Asks.supplied (h : Asks given ss) : Supplied given ss := by
  induction ss generalizing given with
  | nil => trivial
  | cons st ss ih =>
    obtain ⟨hst, hss⟩ := List.forall_mem_cons.1 h
    exact ⟨hst, ih (Asks.mono hss (List.subset_append_left _ _))⟩

theorem supplied_flatMap {α : Type} {f : α → List Statement} {as : List α}
    (h : ∀ a ∈ as, Supplied given (f a)) : Supplied given (as.flatMap f) := by
  induction as generalizing given with
  | nil => trivial
  | cons a as ih =>
    obtain ⟨ha, has⟩ := List.forall_mem_cons.1 h
    rw [List.flatMap_cons]
    exact ha.append (ih fun b hb => (has b hb).mono (List.subset_append_left _ _))

theorem supplied_collect {α : Type} {f : α → Except Fault (List Statement)} {as : List α}
    (h : collect f as = .ok ss) (hf : ∀ a ∈ as, ∀ bs, f a = .ok bs → Supplied given bs) :
    Supplied given ss := by
  induction as generalizing given ss with
  | nil =>
    cases h
    trivial
  | cons a as ih =>
    obtain ⟨first, rest, hfirst, hrest, rfl⟩ := collect_cons_ok.1 h
    obtain ⟨ha, has⟩ := List.forall_mem_cons.1 hf
    exact (ha first hfirst).append (ih hrest fun b hb bs hbs =>
      (has b hb bs hbs).mono (List.subset_append_left _ _))

/-- What the statements read of the model is given, or assigned by one before. -/
def ReadsAssigned (given : List String) (ss : List Statement) : Prop :=
  ∀ before st after, ss = before ++ st :: after → ∀ x ∈ st.reads,
    x ∉ machineryNames → x ∉ reservedNames → x ∈ given ∨ x ∈ targetsBy before

theorem Supplied.readsAssigned (h : Supplied given ss) : ReadsAssigned given ss := by
  rintro before st after rfl x hx hm hr
  induction before generalizing given with
  | nil => exact .inl ((h.1 x hx).resolve_left (not_or.2 ⟨hm, hr⟩))
  | cons first before ih =>
    rw [targetsBy, List.mem_append]
    rcases ih h.2 with hin | hin
    · exact (List.mem_append.1 hin).imp_right .inl
    · exact .inr (.inr hin)

end Supplied

end Program

end Kinetics
