import Kinetics.Formula.Reader
import Kinetics.Proofs.Fallible

/-!
# Kinetics.Proofs.Formula.Skipping

What the content of unknown elements has to do with reading. The events of a document are parted
into those inside of unknown elements and those outside, by the number of open elements that are
passed over. Of the events inside only their nesting counts, and that every reference among them
resolves: if it does, reading gives what the events outside give, and an error otherwise. So
documents that differ in the content of unknown elements alone read alike, unless some reference
in there is unknown.
-/

namespace Kinetics

namespace Formula

open Markup

/-- A reference to a character that is known, or no reference. -/
def resolves : Event → Bool
  | .reference name => (resolve? name).isSome
  | _ => true

/-- How many of the open elements are passed over after an event. -/
def passedAfter (k : Nat) : Event → Nat
  | .opening name _ =>
    if 0 < k then k + 1 else if OpenElement.isKnown (localName name) then 0 else 1
  | .closing _ => k - 1
  | _ => k

/-- The event is in the content of an unknown element. -/
def isHidden (k : Nat) (e : Event) : Bool :=
  0 < k && 0 < passedAfter k e

/-- A tag that opens and closes an unknown element, as two tags. -/
def unfolded : Event → List Event
  | .single name attributes =>
    if OpenElement.isKnown (localName name) then [.single name attributes]
    else [.opening name attributes, .closing name]
  | e => [e]

/-- The events outside of unknown elements, and the tags of these. -/
def shown (k : Nat) : List Event → List Event
  | [] => []
  | e :: es => (if isHidden k e then [] else unfolded e) ++ shown (passedAfter k e) es

/-- The events inside of unknown elements. -/
def hidden (k : Nat) : List Event → List Event
  | [] => []
  | e :: es => (if isHidden k e then [e] else []) ++ hidden (passedAfter k e) es

namespace Builder

variable {b b' : Builder} {e : Event} {es : List Event}

/-- The state with no more than the outermost unknown element open. -/
def shallow (b : Builder) : Builder :=
  { b with skipping := min b.skipping 1 }

theorem skipping_opening {name attributes : List Char} (h : b.opening name attributes = .ok b') :
    b'.skipping = passedAfter b.skipping (.opening name attributes) := by
  simp only [opening, passedAfter] at h ⊢
  split at h
  · rename_i hk
    cases h
    exact (if_pos hk).symm
  · rename_i hk
    split at h
    · cases h
    · cases h
      exact (if_neg hk).symm

theorem skipping_closing {name : List Char} (h : b.closing name = .ok b') :
    b'.skipping = b.skipping - 1 := by
  simp only [closing] at h
  split at h
  · cases h
    rfl
  · rename_i hk
    have hzero : b.skipping - 1 = 0 := by omega
    split at h
    · cases h
    · split at h
      · split at h
        · cases h
        · cases h
          rw [hzero]
          unfold attach
          split <;> rfl
      · cases h

theorem skipping_text {cs : List Char} (h : b.text cs = .ok b') : b'.skipping = b.skipping := by
  simp only [text] at h
  split at h
  · cases h
    rfl
  · split at h
    · cases h
      rfl
    · split at h
      · cases h
        rfl
      · cases h

/-- The depth of what is passed over depends on the tags alone. -/
theorem skipping_step (h : b.step e = .ok b') : b'.skipping = passedAfter b.skipping e := by
  cases e with
  | opening name attributes => exact skipping_opening h
  | single name attributes =>
    simp only [step] at h
    split at h
    · cases h
    · rename_i c hc
      rw [skipping_closing h, skipping_opening hc]
      simp only [passedAfter]
      split
      · rfl
      · split <;> omega
  | closing name => exact skipping_closing h
  | text cs => exact skipping_text h
  | reference name =>
    simp only [step] at h
    split at h
    · exact skipping_text h
    · cases h
  | verbatim cs => exact skipping_text h

/-- An event inside of an unknown element changes the depth and nothing else. -/
theorem step_hidden (h : isHidden b.skipping e = true) : b.step e =
    if resolves e then .ok { b with skipping := passedAfter b.skipping e }
    else .error .illFormedMarkup := by
  obtain ⟨hk, hafter⟩ : 0 < b.skipping ∧ 0 < passedAfter b.skipping e := by
    simpa [isHidden] using h
  cases e with
  | opening name attributes => simp [step, opening, passedAfter, resolves, hk]
  | single name attributes => simp [step, opening, closing, passedAfter, resolves, hk]
  | closing name =>
    have hdeep : 1 < b.skipping := by
      simp only [passedAfter] at hafter
      omega
    simp [step, closing, passedAfter, resolves, hdeep]
  | text cs => simp [step, text, passedAfter, resolves, hk]
  | reference name =>
    cases hc : resolve? name <;> simp [step, text, passedAfter, resolves, hk, hc]
  | verbatim cs => simp [step, text, passedAfter, resolves, hk]

theorem run_unfolded (b : Builder) (e : Event) : b.run (unfolded e) = b.step e := by
  have hone (e : Event) : b.run [e] = b.step e := by
    simp only [run]
    cases b.step e <;> rfl
  cases e with
  | single name attributes =>
    simp only [unfolded]
    split
    · exact hone _
    · simp only [run, step]
      cases b.opening name attributes with
      | error e => rfl
      | ok c =>
        dsimp only
        cases c.closing name <;> rfl
  | _ => exact hone _

theorem shallow_of_le (h : b.skipping ≤ 1) : b.shallow = b := by
  rw [shallow, Nat.min_eq_left h]

/-- Outside of unknown elements no more than one open element is passed over. -/
theorem le_of_shown {k : Nat} (h : isHidden k e = false) : k ≤ 1 ∧ passedAfter k e ≤ 1 := by
  cases e <;> grind [isHidden, passedAfter]

theorem step_shown (h : isHidden b.skipping e = false) :
    (b.step e).map shallow = b.shallow.run (unfolded e) := by
  obtain ⟨hb, hafter⟩ := le_of_shown h
  rw [shallow_of_le hb, run_unfolded]
  cases hs : b.step e with
  | error f => rfl
  | ok b' => exact congrArg Except.ok (shallow_of_le (skipping_step hs ▸ hafter))

theorem shallow_passedAfter (h : isHidden b.skipping e = true) :
    shallow { b with skipping := passedAfter b.skipping e } = b.shallow := by
  obtain ⟨hk, hafter⟩ : 0 < b.skipping ∧ 0 < passedAfter b.skipping e := by
    simpa [isHidden] using h
  rw [shallow, shallow, Nat.min_eq_right hk, Nat.min_eq_right hafter]

/-- Reading all events, if the hidden references resolve, is reading those that are shown. -/
theorem run_shown (h : ∀ e ∈ hidden b.skipping es, resolves e = true) :
    (b.run es).map shallow = b.shallow.run (shown b.skipping es) := by
  induction es generalizing b with
  | nil => rfl
  | cons e es ih =>
    rw [hidden] at h
    rw [run, shown]
    cases he : isHidden b.skipping e with
    | true =>
      rw [he, if_pos rfl, List.singleton_append, List.forall_mem_cons] at h
      rw [step_hidden he, if_pos h.1, if_pos rfl, List.nil_append, ← shallow_passedAfter he]
      exact ih h.2
    | false =>
      rw [he, if_neg Bool.false_ne_true, List.nil_append] at h
      rw [if_neg Bool.false_ne_true, run_append, ← step_shown he]
      cases hs : b.step e with
      | error f => rfl
      | ok b' =>
        rw [← skipping_step hs] at h ⊢
        exact ih h

/-- A hidden reference that does not resolve is an error, unless there is one before. -/
theorem run_unresolved (h : ∃ e ∈ hidden b.skipping es, resolves e = false) :
    ∃ f, b.run es = .error f ∧
      (f = .illFormedMarkup ∨ b.shallow.run (shown b.skipping es) = .error f) := by
  induction es generalizing b with
  | nil => exact absurd h (by simp [hidden])
  | cons e es ih =>
    rw [hidden] at h
    rw [run, shown]
    cases he : isHidden b.skipping e with
    | true =>
      rw [he, if_pos rfl, List.singleton_append] at h
      simp only [List.mem_cons, exists_eq_or_imp] at h
      rw [step_hidden he, if_pos rfl, List.nil_append, ← shallow_passedAfter he]
      cases hr : resolves e with
      | true => exact ih (h.resolve_left (by simp [hr]))
      | false => exact ⟨_, rfl, .inl rfl⟩
    | false =>
      rw [he, if_neg Bool.false_ne_true, List.nil_append] at h
      rw [if_neg Bool.false_ne_true, run_append, ← step_shown he]
      cases hs : b.step e with
      | error f => exact ⟨f, rfl, .inr rfl⟩
      | ok b' =>
        rw [← skipping_step hs] at h ⊢
        exact ih h

end Builder

/-- The formula of the events of a document. -/
def reading (es : List Event) : Except Fault Node :=
  Builder.initial.run es >>= Builder.finish

theorem reading_shown {es : List Event} (h : ∀ e ∈ hidden 0 es, resolves e = true) :
    reading es = reading (shown 0 es) := by
  have hrun : (Builder.initial.run es).map Builder.shallow = Builder.initial.run (shown 0 es) :=
    Builder.run_shown h
  rw [reading, reading, ← hrun, map_bind_eq]
  rfl

theorem reading_unresolved {es : List Event} (h : ∃ e ∈ hidden 0 es, resolves e = false) :
    ∃ f, reading es = .error f ∧ (f = .illFormedMarkup ∨ reading (shown 0 es) = .error f) := by
  obtain ⟨f, hf, hor⟩ := Builder.run_unresolved (b := Builder.initial) h
  refine ⟨f, by rw [reading, hf]; rfl, hor.imp_right fun hs => ?_⟩
  rw [reading, show Builder.initial.run (shown 0 es) = .error f from hs]
  rfl

theorem shown_append (k : Nat) (es fs : List Event) :
    shown k (es ++ fs) = shown k es ++ shown (es.foldl passedAfter k) fs := by
  induction es generalizing k with
  | nil => rfl
  | cons e es ih => simp [shown, ih]

/-- Events in which every element is closed, with any texts and references among them. -/
inductive WellNested : List Event → Prop where
  | nil : WellNested []
  | text {cs : List Char} {es : List Event} : WellNested es → WellNested (.text cs :: es)
  | verbatim {cs : List Char} {es : List Event} : WellNested es → WellNested (.verbatim cs :: es)
  | reference {name : List Char} {es : List Event} :
      WellNested es → WellNested (.reference name :: es)
  | single {name attributes : List Char} {es : List Event} :
      WellNested es → WellNested (.single name attributes :: es)
  | element {name attributes : List Char} {inner es : List Event} : WellNested inner →
      WellNested es → WellNested (.opening name attributes :: (inner ++ .closing name :: es))

/-- The events of an element with the name and the attributes, whatever is in it. -/
inductive ElementOf (name attributes : List Char) : List Event → Prop where
  | single : ElementOf name attributes [.single name attributes]
  | around {inner : List Event} : WellNested inner →
      ElementOf name attributes (.opening name attributes :: (inner ++ [.closing name]))

/-- The events of two documents differ in the content of unknown elements alone. -/
inductive DifferInside : List Event → List Event → Prop where
  | nil : DifferInside [] []
  | same {e : Event} {es fs : List Event} : DifferInside es fs → DifferInside (e :: es) (e :: fs)
  | unknown {name attributes : List Char} {xs ys es fs : List Event} :
      OpenElement.isKnown (localName name) = false → ElementOf name attributes xs →
      ElementOf name attributes ys → DifferInside es fs → DifferInside (xs ++ es) (ys ++ fs)

theorem foldl_passedAfter {es : List Event} (h : WellNested es) (k : Nat) :
    es.foldl passedAfter (k + 1) = k + 1 := by
  induction h generalizing k with
  | nil => rfl
  | element _ _ ihi ih =>
    rw [List.foldl_cons, List.foldl_append, List.foldl_cons]
    simp [passedAfter, ihi, ih]
  | _ _ ih => exact ih k

/-- What is nested inside of an unknown element is not shown. -/
theorem shown_wellNested {es : List Event} (h : WellNested es) (k : Nat) :
    shown (k + 1) es = [] := by
  induction h generalizing k with
  | nil => rfl
  | element hi _ ihi ih =>
    rw [shown, shown_append]
    simp [isHidden, passedAfter, ihi, shown, foldl_passedAfter hi, ih]
  | _ _ ih => simp [shown, isHidden, passedAfter, ih]

/-- Of an unknown element its tags are shown, or nothing. -/
theorem shown_elementOf {name attributes : List Char} {xs : List Event}
    (hname : OpenElement.isKnown (localName name) = false) (h : ElementOf name attributes xs)
    (k : Nat) :
    shown k xs = (if k = 0 then [.opening name attributes, .closing name] else []) ∧
      xs.foldl passedAfter k = k := by
  cases h with
  | single =>
    by_cases hk : k = 0
    · simp [shown, isHidden, unfolded, passedAfter, hname, hk]
    · simp [shown, isHidden, passedAfter, hk, Nat.pos_of_ne_zero hk]
  | around hi =>
    have hopen : passedAfter k (.opening name attributes) = k + 1 := by
      simp only [passedAfter, hname]
      split <;> simp_all
    have hclose : passedAfter (k + 1) (.closing name) = k := rfl
    rw [List.foldl_cons, List.foldl_append, hopen, foldl_passedAfter hi, List.foldl_cons, hclose,
      List.foldl_nil, shown, hopen, shown_append, shown_wellNested hi, foldl_passedAfter hi]
    by_cases hk : k = 0
    · simp [shown, isHidden, unfolded, passedAfter, hk]
    · simp [shown, isHidden, passedAfter, hk, Nat.pos_of_ne_zero hk]

theorem DifferInside.shown_eq {es fs : List Event} (h : DifferInside es fs) (k : Nat) :
    shown k es = shown k fs := by
  induction h generalizing k with
  | nil => rfl
  | same _ ih => rw [shown, shown, ih]
  | unknown hname hx hy _ ih =>
    obtain ⟨hxs, hxk⟩ := shown_elementOf hname hx k
    obtain ⟨hys, hyk⟩ := shown_elementOf hname hy k
    rw [shown_append, shown_append, hxs, hys, hxk, hyk, ih]

/-- The references in the content of unknown elements are to known characters. -/
def Resolved (markup : String) : Prop :=
  ∀ e ∈ hidden 0 (events markup.toList).1, resolves e = true

instance (markup : String) : Decidable (Resolved markup) :=
  inferInstanceAs (Decidable (∀ e ∈ hidden 0 (events markup.toList).1, resolves e = true))

theorem parse_of_wellFormed {markup : String} (h : (events markup.toList).2 = true) :
    parse markup = reading (events markup.toList).1 := by
  simp only [parse, reading, h, if_true]
  cases Builder.initial.run (events markup.toList).1 <;> rfl

/-- For well formed documents that differ in the content of unknown elements alone: if no reference
in that content is unknown, they are read alike, whatever else is in it. If some reference is, the
document is not read, be the other one a formula or not. -/
theorem parse_differInside {d d' : String} (hd : (events d.toList).2 = true)
    (hd' : (events d'.toList).2 = true)
    (h : DifferInside (events d.toList).1 (events d'.toList).1) :
    (Resolved d → Resolved d' → parse d = parse d') ∧
    (¬Resolved d' → ∃ f, parse d' = .error f ∧
      (Resolved d → f = .illFormedMarkup ∨ parse d = .error f)) := by
  rw [parse_of_wellFormed hd, parse_of_wellFormed hd']
  refine ⟨fun hr hr' => ?_, fun hr' => ?_⟩
  · rw [reading_shown hr, reading_shown hr', h.shown_eq]
  · have hhidden : ∃ e ∈ hidden 0 (events d'.toList).1, resolves e = false := by
      simpa [Resolved] using hr'
    obtain ⟨f, hf, hor⟩ := reading_unresolved hhidden
    refine ⟨f, hf, fun hr => hor.imp_right fun hs => ?_⟩
    rw [reading_shown hr, h.shown_eq, hs]

section Annotated

def annotated (content : String) : String :=
  "<math><mi>a</mi><semantics>" ++ content ++ "</semantics></math>"

def annotatedElement (inner : List Event) : List Event :=
  .opening "semantics".toList [] :: (inner ++ [.closing "semantics".toList])

/-- The events of the document around those of the content. -/
def annotatedEvents (inner : List Event) : List Event :=
  [.opening "math".toList [], .opening "mi".toList [], .text ['a'], .closing "mi".toList] ++
    (annotatedElement inner ++ [.closing "math".toList])

theorem differInside_annotated {inner inner' : List Event} (h : WellNested inner)
    (h' : WellNested inner') :
    DifferInside (annotatedEvents inner) (annotatedEvents inner') := by
  have hname : OpenElement.isKnown (localName "semantics".toList) = false := by decide +kernel
  have helement {es : List Event} (h : WellNested es) :
      ElementOf "semantics".toList [] (annotatedElement es) := .around h
  have hrest : DifferInside (annotatedElement inner ++ [Event.closing "math".toList])
      (annotatedElement inner' ++ [Event.closing "math".toList]) :=
    .unknown hname (helement h) (helement h') (.same .nil)
  exact .same (.same (.same (.same hrest)))

theorem differInside_events {content content' : String} {inner inner' : List Event}
    (he : events (annotated content).toList = (annotatedEvents inner, true))
    (he' : events (annotated content').toList = (annotatedEvents inner', true))
    (h : WellNested inner) (h' : WellNested inner') :
    DifferInside (events (annotated content).toList).1 (events (annotated content').toList).1 := by
  rw [he, he']
  exact differInside_annotated h h'

/-- The annotations `<mi>b</mi>` and `<q/>&lt;` leave the formula as it is, and `&alpha;` makes it
an error. -/
theorem parse_differInside_annotated :
    ∃ n, parse (annotated "<mi>b</mi>") = .ok n ∧ parse (annotated "<q/>&lt;") = .ok n ∧
      parse (annotated "&alpha;") = .error .illFormedMarkup := by
  have hb : events (annotated "<mi>b</mi>").toList = (annotatedEvents
      [.opening "mi".toList [], .text ['b'], .closing "mi".toList], true) := by decide +kernel
  have hq : events (annotated "<q/>&lt;").toList = (annotatedEvents
      [.single ['q'] [], .reference "lt".toList], true) := by decide +kernel
  have ha : events (annotated "&alpha;").toList = (annotatedEvents
      [.reference "alpha".toList], true) := by decide +kernel
  have hwell : WellNested [.opening "mi".toList [], .text ['b'], .closing "mi".toList] :=
    .element (.text .nil) .nil
  obtain ⟨n, hn⟩ := exists_ok (x := parse (annotated "<mi>b</mi>")) (by decide +kernel)
  obtain ⟨hsame, -⟩ := parse_differInside (congrArg Prod.snd hb) (congrArg Prod.snd hq)
    (differInside_events hb hq hwell (.single (.reference .nil)))
  obtain ⟨-, herror⟩ := parse_differInside (congrArg Prod.snd hb) (congrArg Prod.snd ha)
    (differInside_events hb ha hwell (.reference .nil))
  obtain ⟨f, hf, hor⟩ := herror (by decide +kernel)
  refine ⟨n, hn, (hsame (by decide +kernel) (by decide +kernel)).symm.trans hn, ?_⟩
  rcases hor (by decide +kernel) with rfl | hparse
  · exact hf
  · cases hn.symm.trans hparse

end Annotated

end Formula

end Kinetics
