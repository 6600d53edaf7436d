import Kinetics.Proofs.Fallible
import Kinetics.Proofs.Formula.Writing

/-!
# Kinetics.Proofs.Formula.Reading

Reading formulas from markup events. Reading a writing of a tree gives the tree, whatever is open
around it, and what was read up to some event is always the beginning of a writing. So the events
that are accepted are the writings, and in a writing every element is closed.
-/

namespace Kinetics

namespace Formula

open Markup

namespace Builder

/-- The state after some events are read. They are the beginning of a writing: the roots come first,
and in every open element its children and its text. -/
inductive Read : List Event → Builder → Prop where
  | top {es roots text} : Holds roots text es → Text.allBlank text = true → Read es ⟨[], roots, 0⟩
  | within {es frames roots name attributes tag as children text content} :
      Read es ⟨frames, roots, 0⟩ → localName name = tag → attributes? attributes = some as →
      OpenElement.isKnown tag = true → Holds children text content →
      Read (es ++ .opening name attributes :: content) ⟨⟨tag, as, children, text⟩ :: frames, roots, 0⟩
  | skipping {es frames roots name attributes tag as content depth} :
      Read es ⟨frames, roots, 0⟩ → localName name = tag → attributes? attributes = some as →
      OpenElement.isKnown tag = false → Unclosed depth content →
      Read (es ++ .opening name attributes :: content)
        ⟨⟨tag, as, [], []⟩ :: frames, roots, depth + 1⟩

variable {b b' : Builder} {frames : List OpenElement} {f : OpenElement} {roots nodes : List Node}
  {node : Node} {text cs : List Char} {es content : List Event} {e : Event} {tag : String}
  {as : List (String × String)}

theorem run_append_ok (h : b.run es = .ok b') (fs : List Event) : b.run (es ++ fs) = b'.run fs := by
  rw [run_append, h]

theorem run_cons_ok (h : b.step e = .ok b') (es : List Event) : b.run (e :: es) = b'.run es := by
  rw [run, h]

theorem step_characters (h : e.characters? = some cs) (b : Builder) : b.step e = b.text cs := by
  cases e with
  | text | verbatim =>
    cases h
    rfl
  | reference name =>
    obtain ⟨c, hc, rfl⟩ := Option.map_eq_some_iff.1 h
    rw [step, hc]
  | _ => cases h

section PassedOver

/-- What is closed is passed over without a trace. -/
theorem run_closed (h : Closed es) (frames : List OpenElement) (roots : List Node) (depth : Nat) :
    run ⟨frames, roots, depth + 1⟩ es = .ok ⟨frames, roots, depth + 1⟩ := by
  induction h generalizing depth with
  | nil => rfl
  | @piece e cs es hc _ ih => exact (run_cons_ok (step_characters hc _) es).trans (ih depth)
  | @single name attributes es _ ih =>
    exact (run_cons_ok rfl es).trans (ih depth)
  | @element name attributes name' inner es _ _ _ ihi ih =>
    have hopening : step ⟨frames, roots, depth + 1⟩ (.opening name attributes) =
        .ok ⟨frames, roots, depth + 2⟩ := rfl
    have hclosing : step ⟨frames, roots, depth + 2⟩ (.closing name') =
        .ok ⟨frames, roots, depth + 1⟩ := rfl
    rw [run_cons_ok hopening, run_append_ok (ihi (depth + 1)), run_cons_ok hclosing, ih depth]

end PassedOver

section Written

/-- An element is opened. -/
theorem opening_ok {name attributes : List Char} (hname : localName name = tag)
    (has : attributes? attributes = some as) (frames : List OpenElement) (roots : List Node) :
    opening ⟨frames, roots, 0⟩ name attributes =
      .ok ⟨⟨tag, as, [], []⟩ :: frames, roots, if OpenElement.isKnown tag then 0 else 1⟩ := by
  subst hname
  simp only [opening, has]
  rfl

/-- Closing the innermost element puts what it is closed as around it. -/
theorem closing_ok {name : List Char} {skipping : Nat} (hs : ¬1 < skipping) :
    closing ⟨f :: frames, roots, skipping⟩ name = .ok b' ↔
      ∃ node, localName name = f.tag ∧ f.close = .ok node ∧ attach node frames roots = b' := by
  simp only [closing, if_neg hs]
  constructor
  · intro h
    split at h
    · rename_i hname
      cases hc : f.close with
      | error e => simp [hc] at h
      | ok node =>
        rw [hc] at h
        exact ⟨node, hname.symm, rfl, Except.ok.inj h⟩
    · cases h
  · rintro ⟨node, hname, hc, rfl⟩
    rw [if_pos hname.symm, hc]

/-- An element is read as what it is closed as once its content is read. -/
theorem run_element (h : Element tag as content es)
    (hcontent : run ⟨⟨tag, as, [], []⟩ :: frames, roots, if OpenElement.isKnown tag then 0 else 1⟩
      content = .ok ⟨f :: frames, roots, if OpenElement.isKnown tag then 0 else 1⟩)
    (htag : f.tag = tag) (hclose : f.close = .ok node) :
    run ⟨frames, roots, 0⟩ es = .ok (attach node frames roots) := by
  have hskip : ¬1 < if OpenElement.isKnown tag then 0 else 1 := by
    split <;> decide
  cases h with
  | @around name name' attributes content hname hname' has =>
    have hopening : step ⟨frames, roots, 0⟩ (.opening name attributes) = .ok _ :=
      opening_ok hname has frames roots
    have hclosing : step ⟨f :: frames, roots, if OpenElement.isKnown tag then 0 else 1⟩
        (.closing name') = .ok _ :=
      (closing_ok hskip).2 ⟨node, hname'.trans htag.symm, hclose, rfl⟩
    rw [run_cons_ok hopening, run_append_ok hcontent, run_cons_ok hclosing]
    rfl
  | @single name attributes hname has =>
    cases hcontent
    have hclosing : closing ⟨⟨tag, as, [], []⟩ :: frames, roots,
        if OpenElement.isKnown tag then 0 else 1⟩ name = .ok (attach node frames roots) :=
      (closing_ok hskip).2 ⟨node, hname, hclose, rfl⟩
    simp only [run, step, opening_ok hname has, hclosing]

mutual

/-- Reading a writing of a tree adds the tree to what is open. -/
theorem run_writes {node : Node} {es : List Event} (frames : List OpenElement) (roots : List Node) :
    Writes node es → run ⟨frames, roots, 0⟩ es = .ok (attach node frames roots)
  | @Writes.known tag as _ _ _ _ _ hd hc he => by
    obtain ⟨hknown, hclose⟩ := denotes_iff.1 hd
    have hcontent := run_holds ⟨tag, as, [], []⟩ frames roots hc
    refine run_element he ?_ rfl hclose
    rw [hknown]
    exact hcontent
  | @Writes.unknown tag as _ _ htag hc he => by
    refine run_element (f := ⟨tag, as, [], []⟩) he ?_ rfl (close_unknown htag as)
    rw [htag]
    exact run_closed hc _ roots 0

/-- Reading the content of an element adds its nodes and its text to the element. -/
theorem run_holds {nodes : List Node} {text : List Char} {es : List Event} (f : OpenElement)
    (frames : List OpenElement) (roots : List Node) : Holds nodes text es →
    run ⟨f :: frames, roots, 0⟩ es =
      .ok ⟨{ f with children := f.children ++ nodes, text := f.text ++ text } :: frames, roots, 0⟩
  | .nil => by
    rw [List.append_nil, List.append_nil]
    rfl
  | .piece hc h => by
    rw [run_cons_ok (step_characters hc _), run_holds _ frames roots h, List.append_assoc]
  | .node hw h => by
    rw [run_append_ok (run_writes _ roots hw), attach, run_holds _ frames roots h,
      List.append_assoc, List.singleton_append]

end

/-- What is read outside all elements is a list of roots with blanks between them. -/
theorem run_roots {nodes : List Node} {text : List Char} {es : List Event} (roots : List Node)
    (ht : Text.allBlank text = true) : Holds nodes text es →
    run ⟨[], roots, 0⟩ es = .ok ⟨[], roots ++ nodes, 0⟩
  | .nil => by
    rw [List.append_nil]
    rfl
  | @Holds.piece _ cs _ _ _ hc h => by
    rw [Text.allBlank, List.all_append, Bool.and_eq_true] at ht
    have hpiece : Builder.text ⟨[], roots, 0⟩ cs = .ok ⟨[], roots, 0⟩ := if_pos ht.1
    rw [run_cons_ok ((step_characters hc _).trans hpiece)]
    exact run_roots roots ht.2 h
  | .node hw h => by
    rw [run_append_ok (run_writes [] roots hw), attach, run_roots _ ht h, List.append_assoc,
      List.singleton_append]

end Written

section Progress

/-- An element that is closed without content is a writing of what it is closed as. -/
theorem writes_empty (hclose : OpenElement.close ⟨tag, as, [], []⟩ = .ok node)
    (h : Element tag as [] es) : Writes node es := by
  cases hknown : OpenElement.isKnown tag with
  | true => exact .known (denotes_iff.2 ⟨hknown, hclose⟩) .nil h
  | false =>
    rw [close_unknown hknown] at hclose
    cases hclose
    exact .unknown hknown .nil h

theorem Read.attach (h : Read es ⟨frames, roots, 0⟩) (hw : Writes node content) :
    Read (es ++ content) (Builder.attach node frames roots) := by
  have hnode : Holds [node] [] content := by
    have h := Holds.node hw .nil
    rwa [List.append_nil] at h
  generalize hb : Builder.mk frames roots 0 = b at h
  cases h with
  | top h ht =>
    cases hb
    refine .top (hnode.append h) ?_
    rwa [List.append_nil]
  | @within _ _ _ _ _ _ _ _ text _ h hname has hknown hc =>
    cases hb
    rw [List.append_assoc, List.cons_append]
    have hall := hnode.append hc
    rw [List.append_nil] at hall
    exact .within h hname has hknown hall
  | skipping => cases hb

theorem Read.characters (h : Read es b) (hc : e.characters? = some cs) (hs : b.text cs = .ok b') :
    Read (es ++ [e]) b' := by
  have hpiece : Holds [] cs [e] := by
    have h := Holds.piece hc .nil
    rwa [List.append_nil] at h
  cases h with
  | @top _ _ before h ht =>
    change (if Text.allBlank cs then _ else _) = _ at hs
    split at hs
    · rename_i hblank
      cases hs
      have hall := hpiece.append h
      rw [List.append_nil] at hall
      refine .top hall ?_
      rw [Text.allBlank, List.all_append, Bool.and_eq_true]
      exact ⟨ht, hblank⟩
    · cases hs
  | within h hname has hknown hcontent =>
    cases hs
    rw [List.append_assoc, List.cons_append]
    have hall := hpiece.append hcontent
    rw [List.append_nil] at hall
    exact .within h hname has hknown hall
  | skipping h hname has hknown hopen =>
    cases hs
    rw [List.append_assoc, List.cons_append]
    exact .skipping h hname has hknown (hopen.append (.piece hc .nil))

/-- Opening an element starts its content. -/
theorem Read.opening {name attributes : List Char} (h : Read es b)
    (hs : b.opening name attributes = .ok b') :
    Read (es ++ [Event.opening name attributes]) b' := by
  have hstart {frames : List OpenElement} {roots : List Node} (h : Read es ⟨frames, roots, 0⟩)
      (hs : Builder.opening ⟨frames, roots, 0⟩ name attributes = .ok b') :
      Read (es ++ [Event.opening name attributes]) b' := by
    cases has : attributes? attributes with
    | none =>
      simp [Builder.opening, has] at hs
    | some as =>
      rw [opening_ok rfl has] at hs
      cases hs
      split
      · exact .within h rfl has ‹_› .nil
      · exact .skipping h rfl has (Bool.eq_false_iff.2 ‹_›) (.closed .nil)
  have hread := h
  cases h with
  | top | within => exact hstart hread hs
  | skipping h hname has hknown hopen =>
    cases hs
    rw [List.append_assoc, List.cons_append]
    exact .skipping h hname has hknown (.inside hopen .nil)

/-- Closing an element completes its writing. -/
theorem Read.closing {name : List Char} (h : Read es b) (hs : b.closing name = .ok b') :
    Read (es ++ [Event.closing name]) b' := by
  cases h with
  | top => cases hs
  | within h hname has hknown hcontent =>
    obtain ⟨node, hname', hnode, rfl⟩ := (closing_ok (by decide)).1 hs
    rw [List.append_assoc, List.cons_append]
    exact h.attach (.known (denotes_iff.2 ⟨hknown, hnode⟩) hcontent (.around hname hname' has))
  | @skipping _ _ _ _ _ _ _ _ depth h hname has hknown hopen =>
    cases depth with
    | zero =>
      obtain ⟨node, hname', hnode, rfl⟩ := (closing_ok (by decide)).1 hs
      rw [close_unknown hknown] at hnode
      cases hnode
      rw [List.append_assoc, List.cons_append]
      cases hopen with
      | closed hc => exact h.attach (.unknown hknown hc (.around hname hname' has))
    | succ depth =>
      cases hs
      rw [List.append_assoc, List.cons_append]
      exact .skipping h hname has hknown (hopen.close name)

/-- A tag that opens and closes its element is an element without content. -/
theorem Read.single {name attributes : List Char} (h : Read es b)
    (hs : b.step (.single name attributes) = .ok b') :
    Read (es ++ [Event.single name attributes]) b' := by
  have helement {frames : List OpenElement} {roots : List Node} (h : Read es ⟨frames, roots, 0⟩)
      (hs : Builder.step ⟨frames, roots, 0⟩ (.single name attributes) = .ok b') :
      Read (es ++ [Event.single name attributes]) b' := by
    cases has : attributes? attributes with
    | none => simp [step, Builder.opening, has] at hs
    | some as =>
      simp only [Builder.step, opening_ok rfl has] at hs
      obtain ⟨node, -, hnode, rfl⟩ := (closing_ok (by split <;> decide)).1 hs
      exact h.attach (writes_empty hnode (.single rfl has))
  have hread := h
  cases h with
  | top | within => exact helement hread hs
  | skipping h hname has hknown hopen =>
    cases hs
    rw [List.append_assoc, List.cons_append]
    exact .skipping h hname has hknown (hopen.append (.single .nil))

/-- What is read after the beginning of a writing makes it a longer one. -/
theorem Read.step (h : Read es b) (hs : b.step e = .ok b') : Read (es ++ [e]) b' := by
  cases e with
  | opening => exact h.opening hs
  | closing => exact h.closing hs
  | single => exact h.single hs
  | text | verbatim => exact h.characters rfl hs
  | reference name =>
    simp only [Builder.step] at hs
    split at hs
    · rename_i c hc
      exact h.characters (by rw [Event.characters?, hc, Option.map_some]) hs
    · cases hs

theorem Read.run {fs : List Event} (h : Read es b) (hs : b.run fs = .ok b') :
    Read (es ++ fs) b' := by
  induction fs generalizing es b with
  | nil =>
    cases hs
    rwa [List.append_nil]
  | cons e fs ih =>
    simp only [Builder.run] at hs
    split at hs
    · cases hs
    · rename_i hstep
      have hall := ih (h.step hstep) hs
      rwa [List.append_assoc, List.singleton_append] at hall

/-- The events that are read to the end, with no element open, are the writings. -/
theorem run_initial_iff : initial.run es = .ok ⟨[], nodes, 0⟩ ↔
    ∃ text, Holds nodes text es ∧ Text.allBlank text = true := by
  constructor
  · intro h
    have hread : Read es ⟨[], nodes, 0⟩ := (Read.top .nil rfl).run h
    cases hread with
    | top hholds ht => exact ⟨_, hholds, ht⟩
  · rintro ⟨text, hholds, ht⟩
    have h := run_roots [] ht hholds
    rwa [List.nil_append] at h

/-- Where no element is open nothing is passed over. -/
theorem Read.whole (h : Read es b) (hframes : b.frames = []) :
    b = ⟨[], b.roots, 0⟩ ∧ ∃ text, Holds b.roots text es ∧ Text.allBlank text = true := by
  cases h with
  | top hholds ht => exact ⟨rfl, _, hholds, ht⟩
  | within | skipping => cases hframes

end Progress

end Builder

/-- The events of a writing are read as the tree that they write, and every tree with trimmed leaves
and unknown tags has a writing. What is read to the end is a writing, and what is accepted closes
every element it opens; in a document, by its own name. -/
theorem writing_read_back :
    (∀ node : Node, (∃ es, Writes node es) ↔ node.Plain) ∧
    (∀ node es, Writes node es → Builder.initial.run es = .ok ⟨[], [node], 0⟩) ∧
    (∀ nodes es, Builder.initial.run es = .ok ⟨[], nodes, 0⟩ ↔
      ∃ text, Holds nodes text es ∧ Text.allBlank text = true) ∧
    (∀ es b node, Builder.initial.run es = .ok b → b.finish = .ok node →
      b = ⟨[], b.roots, 0⟩ ∧ Closed es) ∧
    (∀ markup node, (events markup.toList).2 = true → Writes node (events markup.toList).1 →
      parse markup = .ok node) ∧
    ∀ markup node, parse markup = .ok node → Nested Eq (events markup.toList).1 := by
  have hread {es : List Event} {b : Builder} (h : Builder.initial.run es = .ok b) :
      Builder.Read es b :=
    (Builder.Read.top .nil rfl).run h
  have hframes {b : Builder} {node : Node} (h : b.finish = .ok node) : b.frames = [] := by
    unfold Builder.finish at h
    split at h
    · cases h
    · assumption
  have haccepted {es : List Event} {b : Builder} {node : Node} (h : Builder.initial.run es = .ok b)
      (hb : b.finish = .ok node) : b = ⟨[], b.roots, 0⟩ ∧ Closed es := by
    obtain ⟨heq, text, hholds, -⟩ := (hread h).whole (hframes hb)
    exact ⟨heq, hholds.closed⟩
  refine ⟨fun _ => exists_writing_iff, fun node es h => Builder.run_writes [] [] h,
    fun _ _ => Builder.run_initial_iff, fun _ _ _ => haccepted, fun markup node hwell h => ?_,
    fun markup node h => ?_⟩
  · simp only [parse, Builder.run_writes [] [] h, Builder.initial, hwell, if_true]
    rfl
  · simp only [parse] at h
    split at h
    · cases h
    · rename_i b hb
      split at h
      · rename_i hwell
        exact (haccepted hb h).2.of_events hwell
      · cases h

section Quotient

/-- `a / b`, a space, an optional `c`, and an element that is not understood. -/
def quotient : Node :=
  .row [.fraction (.identifier "a") (.identifier "b"), .space "0.2em",
    .fenced "[" "]" [.identifier "c"], .unknown "mglyph"]

def quotientMarkup : String :=
  "<math><mfrac><mi>a</mi><mi>b</mi></mfrac><mspace width='0.2em'/>" ++
    "<mfenced open='[' close=']'><mi>c</mi></mfenced><mglyph><mglyph/>&pi;</mglyph></math>"

/-- The quotient has a writing that is read back, and its document closes all its elements. -/
theorem writing_read_back_quotient :
    (∃ es, Writes quotient es ∧ Builder.initial.run es = .ok ⟨[], [quotient], 0⟩ ∧ Closed es) ∧
    (∃ node, parse quotientMarkup = .ok node) ∧ Nested Eq (events quotientMarkup.toList).1 := by
  have hname {s : String} (h : Text.trimString s = s) : (Node.identifier s).Plain := .identifier h
  have hplain : quotient.Plain := by
    refine .row ?_
    simp only [List.forall_mem_cons]
    exact ⟨.fraction (hname (by decide)) (hname (by decide)), .space,
      .fenced (List.forall_mem_singleton.2 (hname (by decide))),
      .unknown (by decide), List.forall_mem_nil _⟩
  obtain ⟨es, hes⟩ := (writing_read_back.1 quotient).2 hplain
  have hrun := writing_read_back.2.1 quotient es hes
  obtain ⟨node, hnode⟩ := exists_ok (show (parse quotientMarkup).toBool = true by decide +kernel)
  exact ⟨⟨es, hes, hrun, (writing_read_back.2.2.2.1 es _ quotient hrun rfl).2⟩, ⟨node, hnode⟩,
    writing_read_back.2.2.2.2.2 quotientMarkup node hnode⟩

end Quotient

end Formula

end Kinetics
