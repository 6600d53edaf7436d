import Kinetics.Formula.Expression
import Kinetics.Proofs.Arithmetic.Spelling
import Kinetics.Proofs.Dict
import Kinetics.Proofs.Formula.Notation

/-!
# Kinetics.Proofs.Formula.Compilation

Compiling written arithmetic gives code for it. `Renders` says what holds of the siblings of an
expression once their signs of multiplication are written: how they may stand beside others, and
that their fragments say the expression in tokens. One lemma for each operation keeps it, and
`Arithmetic.read_normalize` carries it through the normal form.
-/

namespace Kinetics

namespace Arithmetic

open Formula Node Code

def characters (f : Fragment) : List Char :=
  (f.render id).toList

/-- The fragments say the expression, in tokens of a level. -/
def Encodes (l : Level) (e : Expr) (fs : List Fragment) : Prop :=
  ∃ ts a, Says (fs.map characters) ts ∧ Parses l ts a ∧
    (∀ (K : Type) [Field K] (m : Meaning K), a.value m = e.value m) ∧
    fs.filterMap Fragment.symbol? = e.symbols

@[simp]
theorem symbol?_text (s : String) : (Fragment.text s).symbol? = none := rfl

/-- The siblings, in which no sign of multiplication is missing inside, say the expression. -/
structure Renders (l : Level) (e : Expr) (es : List Node) : Prop where
  known : ∀ n ∈ es, n.isUnknown = false
  last : ∃ n, es.getLast? = some n ∧ n.closesFactor = true
  head : headKeyword? es = none
  first : l = .term → ∃ n, es.head? = some n ∧ n.opensFactor = true
  plain : ∀ n, es = [n] → n.isAsterisk = false
  code : ∃ parts, fragmentsEach "" (joinFactors es) = .ok parts ∧ Encodes l e parts.flatten

section Joining

variable {es fs : List Node} {before : Option Node} {n l : Node}

theorem joinAfter_append (hk : ∀ n ∈ es, n.isUnknown = false) (hl : es.getLast? = some l) :
    joinAfter before (es ++ fs) = joinAfter before es ++ joinAfter (some l) fs := by
  induction es generalizing before with
  | nil => cases hl
  | cons x xs ih =>
    have hx := hk x (by simp)
    cases xs with
    | nil =>
      cases hl
      simp only [List.cons_append, List.nil_append, joinAfter, hx, Bool.false_eq_true, if_false]
      split <;> rfl
    | cons y ys =>
      rw [List.getLast?_cons_cons] at hl
      have : joinAfter (some x) (y :: (ys ++ fs)) =
          joinAfter (some x) (y :: ys) ++ joinAfter (some l) fs :=
        ih (fun n hn => hk n (List.mem_cons_of_mem _ hn)) hl
      simp only [List.cons_append, joinAfter.eq_2 _ x, hx, Bool.false_eq_true, if_false, this]
      split <;> rfl

/-- A sign of multiplication stands between a term and what starts a factor. -/
theorem joinAfter_factor (hl : l.closesFactor = true)
    (hf : ∃ n, es.head? = some n ∧ n.opensFactor = true) :
    joinAfter (some l) es = .operator "*" :: joinFactors es := by
  obtain ⟨n, hn, ho⟩ := hf
  cases es with
  | nil => cases hn
  | cons x xs =>
    cases hn
    have hk : n.isUnknown = false := by cases n <;> simp_all [opensFactor, isUnknown]
    simp [joinFactors, joinAfter, hl, ho, hk]

theorem joinAfter_sign (hk : ∀ n ∈ es, n.isUnknown = false) (hl : l.closesFactor = false) :
    joinAfter (some l) es = joinFactors es := by
  cases es with
  | nil => rfl
  | cons x xs => simp [joinFactors, joinAfter, hl, hk x]

theorem headKeyword?_joinFactors (es : List Node) :
    headKeyword? (joinFactors es) = headKeyword? es := by
  cases es with
  | nil => rfl
  | cons x xs => cases x <;> simp [joinFactors, joinAfter, headKeyword?]

theorem length_le_joinAfter (before : Option Node) (es : List Node) :
    es.length ≤ (joinAfter before es).length := by
  induction es generalizing before with
  | nil => exact Nat.le_refl _
  | cons x xs ih =>
    have := ih (if x.isUnknown then before else some x)
    simp only [joinAfter]
    split <;> simp only [List.length_cons] <;> omega

theorem joinFactors_eq_single (h : joinFactors es = [n]) : es = [n] := by
  have hle := length_le_joinAfter none es
  rw [← joinFactors, h] at hle
  match es, hle with
  | [], _ => cases h
  | [x], _ => simpa [joinFactors, joinAfter] using h

theorem fragmentsEach_append {suffix : String} {ps qs : List (List Fragment)}
    (he : fragmentsEach suffix es = .ok ps) (hf : fragmentsEach suffix fs = .ok qs) :
    fragmentsEach suffix (es ++ fs) = .ok (ps ++ qs) := by
  induction es generalizing ps with
  | nil =>
    cases he
    exact hf
  | cons x xs ih =>
    simp only [fragmentsEach] at he
    split at he
    · cases he
    · rename_i hx
      split at he
      · cases he
      · rename_i hxs
        cases he
        simp only [List.cons_append, fragmentsEach, hx, ih hxs]

theorem fragmentsEach_cons {suffix : String} {fx : List Fragment} {ps : List (List Fragment)}
    (hn : n.fragments suffix = .ok fx) (he : fragmentsEach suffix es = .ok ps) :
    fragmentsEach suffix (n :: es) = .ok (fx :: ps) := by
  simp only [fragmentsEach, hn, he]

end Joining

section Encoding

variable {l : Level} {e a b : Expr} {fa fb : List Fragment}

theorem says_text {s : String} {t : Token} (h : Written t) (hs : s.toList = t.text) :
    Says ([Fragment.text s].map characters) [t] := by
  have := Says.one h.stands
  rwa [← hs] at this

theorem Encodes.toSum (h : Encodes l e fa) : Encodes .sum e fa := by
  obtain ⟨ts, x, hs, hp, hv, hn⟩ := h
  exact ⟨ts, x, hs, hp.toSum, hv, hn⟩

theorem Encodes.grouped (h : Encodes l e fa) : Encodes .atom e (parenthesized fa) := by
  obtain ⟨ts, x, hs, hp, hv, hn⟩ := h
  refine ⟨inBrackets ts, x, ?_, .group hp.toSum, hv, ?_⟩
  · simpa [parenthesized, inBrackets] using
      ((says_text .opening rfl).append hs).append (says_text .closing rfl)
  · simpa [parenthesized, List.filterMap_cons] using hn

theorem says_call {s : String} {w : List Char} (h : Written (.name w))
    (hs : s.toList = w ++ ['(']) :
    Says ([Fragment.text s].map characters) [.name w, .opening .round] := by
  obtain ⟨hne, hv⟩ := h.text_visible
  have hstands : Stands (w ++ ['(']) [.name w, .opening .round] := by
    refine ⟨?_, ?_, fun rest hrest => ?_⟩
    · cases w with
      | nil => exact absurd rfl hne
      | cons c r => exact ⟨c, r ++ ['('], rfl, hv c (by simp [Token.text])⟩
    · intro hn
      rcases List.mem_append.1 hn with hn | hn
      · exact absurd (hv _ hn) (by decide)
      · exact absurd hn (by decide)
    · obtain ⟨c, r, rfl, hc, hr⟩ := h.word
      rw [List.append_assoc, List.singleton_append, List.cons_append,
        lex_name hc hr (.cons (not_continuesName (by simp))),
        lex_mark (by decide) (takeToken_mark (by decide))]
      rfl
  have := Says.one hstands
  rwa [← hs] at this

theorem Encodes.between {la lb : Level} {s : String} {t : Token} (ha : Encodes la a fa)
    (hb : Encodes lb b fb) (ht : Written t) (hs : s.toList = t.text)
    (hn : e.symbols = a.symbols ++ b.symbols)
    (build : ∀ {ts us x y}, Parses la ts x → Parses lb us y →
      ∃ z, Parses l (ts ++ t :: us) z ∧ ∀ (K : Type) [Field K] (m : Meaning K),
        x.value m = a.value m → y.value m = b.value m → z.value m = e.value m) :
    Encodes l e (fa ++ .text s :: fb) := by
  obtain ⟨ts, x, hsa, hpa, hva, hna⟩ := ha
  obtain ⟨us, y, hsb, hpb, hvb, hnb⟩ := hb
  obtain ⟨z, hz, hv⟩ := build hpa hpb
  refine ⟨ts ++ t :: us, z, ?_, hz, fun K _ m => hv K m (hva K m) (hvb K m), ?_⟩
  · simpa using hsa.append ((says_text ht hs).append hsb)
  · rw [List.filterMap_append, List.filterMap_cons_none (symbol?_text s), hna, hnb, hn]

theorem Encodes.call {s : String} (f : Call) (ha : Encodes l a fa)
    (hs : s.toList = f.word ++ ['(']) (hn : e.symbols = a.symbols)
    (hv : ∀ (K : Type) [Field K] (m : Meaning K), e.value m = m.call f (a.value m)) :
    Encodes .atom e (.text s :: (fa ++ [Fragment.text ")"])) := by
  obtain ⟨ts, x, hsa, hpa, hva, hna⟩ := ha
  refine ⟨_, _, ?_, .call f hpa.toSum, fun K _ m => ?_, ?_⟩
  · simpa [inBrackets] using
      ((says_call (written_call f) hs).append hsa).append (says_text (s := ")") .closing rfl)
  · rw [Tree.value, hva, hv]
  · rw [hn, ← hna]
    simp [List.filterMap_cons]

theorem Encodes.maximum {la lb : Level} (ha : Encodes la a fa) (hb : Encodes lb b fb) :
    Encodes .atom (.max a b)
      (.text "np.maximum(" :: (fa ++ .text "," :: (fb ++ [Fragment.text ")"]))) := by
  obtain ⟨ts, x, hsa, hpa, hva, hna⟩ := ha
  obtain ⟨us, y, hsb, hpb, hvb, hnb⟩ := hb
  refine ⟨_, _, ?_, .maximum hpa.toSum hpb.toSum, fun K _ m => ?_, ?_⟩
  · simpa [inBrackets] using
      (((says_call written_maximum rfl).append hsa).append
        ((says_text (s := ",") .comma rfl).append hsb)).append (says_text (s := ")") .closing rfl)
  · rw [Tree.value, hva, hvb, Expr.value]
  · simp [List.filterMap_cons, hna, hnb, Expr.symbols]

theorem Encodes.toTerm (h : Encodes .atom e fa) : Encodes .term e fa := by
  obtain ⟨ts, x, hs, hp, hv, hn⟩ := h
  exact ⟨ts, x, hs, .factor (.atom hp), hv, hn⟩

end Encoding

section Rendering

variable {l : Level} {e a b : Expr} {es fs : List Node} {n x y : Node}

theorem Renders.ne_nil (h : Renders l e es) : es ≠ [] := by
  obtain ⟨n, hn, -⟩ := h.last
  rintro rfl
  cases hn

theorem Renders.toSum (h : Renders l e es) : Renders .sum e es := by
  obtain ⟨parts, hp, he⟩ := h.code
  exact ⟨h.known, h.last, h.head, (fun h => nomatch h), h.plain, parts, hp, he.toSum⟩

theorem Renders.single (h : Renders l e [n]) : ∃ f, n.fragments "" = .ok f ∧ Encodes l e f := by
  obtain ⟨parts, hp, he⟩ := h.code
  have hj : joinFactors [n] = [n] := by simp [joinFactors, joinAfter]
  rw [hj] at hp
  simp only [fragmentsEach] at hp
  split at hp
  · cases hp
  · rename_i f hf
    cases hp
    exact ⟨f, hf, by simpa using he⟩

theorem renders_single {f : List Fragment} (hk : n.isUnknown = false)
    (hc : n.closesFactor = true) (hh : headKeyword? [n] = none) (ho : n.opensFactor = true)
    (hp : n.isAsterisk = false) (hf : n.fragments "" = .ok f) (he : Encodes l e f) :
    Renders l e [n] := by
  refine ⟨by simpa using hk, ⟨n, rfl, hc⟩, hh, fun _ => ⟨n, rfl, ho⟩, ?_, ?_⟩
  · intro k hn
    cases hn
    exact hp
  · exact ⟨[f], by simp [joinFactors, joinAfter, fragmentsEach, hf], by simpa using he⟩

theorem Renders.fragments_row (h : Renders l e es) :
    ∃ f, (Node.row (joinFactors es)).fragments "" = .ok f ∧ Encodes l e f := by
  obtain ⟨parts, hp, he⟩ := h.code
  exact ⟨parts.flatten, by simp [fragments, headKeyword?_joinFactors, h.head, hp], he⟩

theorem Renders.row (h : Renders l e es) : Renders l e [.row (joinFactors es)] := by
  obtain ⟨f, hf, he⟩ := h.fragments_row
  refine renders_single rfl rfl rfl ?_ ?_ hf he
  · simp [opensFactor, headKeyword?_joinFactors, h.head]
  · cases hj : joinFactors es with
    | nil => rfl
    | cons x xs =>
      cases xs with
      | cons y ys => rfl
      | nil =>
        rw [isAsterisk]
        exact h.plain x (joinFactors_eq_single hj)

theorem operator_fragments {s : String} (h : operatorCode s = s) (hs : s ≠ "") :
    (Node.operator s).fragments "" = .ok [.text s] := by
  simp [fragments, h, hs]

theorem getLast?_append_some (h : fs.getLast? = some n) : (es ++ fs).getLast? = some n := by
  rw [List.getLast?_append, h, Option.some_or]

theorem append_ne_single (ha : es ≠ []) (hb : fs ≠ []) : es ++ fs ≠ [n] := by
  intro h
  have := congrArg List.length h
  have := List.length_pos_iff.2 ha
  have := List.length_pos_iff.2 hb
  simp only [List.length_append, List.length_cons, List.length_nil] at *
  omega

theorem headKeyword?_append (h : es ≠ []) : headKeyword? (es ++ fs) = headKeyword? es := by
  cases es with
  | nil => exact absurd rfl h
  | cons x xs => cases x <;> rfl

def Sign.glyph : Sign → String
  | .plus => "+"
  | .minus => "-"

/-- A sign between siblings joins nothing to them. -/
theorem joinFactors_sign (o : Sign) (ha : Renders l a es) (hb : Renders .term b fs) :
    joinFactors (es ++ .operator o.glyph :: fs) =
      joinFactors es ++ .operator o.glyph :: joinFactors fs := by
  obtain ⟨k, hl, -⟩ := ha.last
  have ho : opensFactor (.operator o.glyph) = false := by cases o <;> decide
  have hc : closesFactor (.operator o.glyph) = false := by cases o <;> decide
  rw [joinFactors, joinAfter_append ha.known hl, joinAfter, ho]
  simp [isUnknown, joinAfter_sign hb.known hc, joinFactors]

theorem Renders.additive (o : Sign) (ha : Renders l a es) (hb : Renders .term b fs)
    (hn : e.symbols = a.symbols ++ b.symbols)
    (hv : ∀ (K : Type) [Field K] (m : Meaning K), e.value m = o.apply (a.value m) (b.value m)) :
    Renders .sum e (es ++ .operator o.glyph :: fs) := by
  obtain ⟨ps, hps, hea⟩ := ha.code
  obtain ⟨qs, hqs, heb⟩ := hb.code
  obtain ⟨k, hl, hc⟩ := hb.last
  refine ⟨?_, ⟨k, getLast?_append_some ?_, hc⟩, ?_, (fun h => nomatch h), ?_, ?_⟩
  · simpa [isUnknown, or_imp, forall_and] using ⟨ha.known, hb.known⟩
  · simp [List.getLast?_cons, hl]
  · rw [headKeyword?_append ha.ne_nil, ha.head]
  · exact fun n hs => absurd hs (append_ne_single ha.ne_nil (by simp))
  · have ho : (Node.operator o.glyph).fragments "" = .ok [.text o.glyph] :=
      operator_fragments (by cases o <;> decide) (by cases o <;> decide)
    refine ⟨ps ++ [Fragment.text o.glyph] :: qs, ?_, ?_⟩
    · rw [joinFactors_sign o ha hb]
      exact fragmentsEach_append hps (fragmentsEach_cons ho hqs)
    · have := hea.toSum.between (l := .sum) heb (.sign o) (s := o.glyph) (by cases o <;> rfl) hn
        (fun {ts us x y} hx hy => ⟨_, .additive o hx hy, fun K _ m hxv hyv => by
          rw [Tree.value, hxv, hyv, hv]⟩)
      simpa using this

theorem minus_no_keyword : headKeyword? (.operator "-" :: fs) = none :=
  show Keyword.ofOperator? "-" = none by decide

theorem Renders.negative (hb : Renders .term b fs) (hn : e.symbols = b.symbols)
    (hv : ∀ (K : Type) [Field K] (m : Meaning K), e.value m = -b.value m) :
    Renders .sum e (.operator "-" :: fs) := by
  obtain ⟨qs, hqs, ts, y, hs, hp, hvb, hnb⟩ := hb.code
  obtain ⟨k, hl, hc⟩ := hb.last
  refine ⟨?_, ⟨k, ?_, hc⟩, minus_no_keyword, (fun h => nomatch h), ?_, ?_⟩
  · simpa [isUnknown] using hb.known
  · simp [List.getLast?_cons, hl]
  · intro n h
    cases h
    exact absurd rfl hb.ne_nil
  · have ho : (Node.operator "-").fragments "" = .ok [.text "-"] :=
      operator_fragments (by decide) (by decide)
    have hj : joinFactors (.operator "-" :: fs) = .operator "-" :: joinFactors fs := by
      rw [joinFactors, joinAfter]
      simp [isUnknown, opensFactor, joinAfter_sign hb.known (l := .operator "-") (by decide)]
    refine ⟨[.text "-"] :: qs, ?_, ?_⟩
    · rw [hj]
      exact fragmentsEach_cons ho hqs
    · obtain ⟨z, hz, hvz⟩ := hp.negate
      refine ⟨_, z, ?_, hz.toSum, fun K _ m => ?_, ?_⟩
      · simpa using (says_text (s := "-") (.sign .minus) rfl).append hs
      · rw [hvz, hvb, hv]
      · simpa [List.filterMap_cons] using hnb.trans hn.symm

theorem Renders.multiplicative (ha : Renders .term a es) (hb : Renders .term b fs)
    (hn : e.symbols = a.symbols ++ b.symbols)
    (hv : ∀ (K : Type) [Field K] (m : Meaning K), e.value m = a.value m * b.value m) :
    Renders .term e (es ++ fs) := by
  obtain ⟨ps, hps, hea⟩ := ha.code
  obtain ⟨qs, hqs, heb⟩ := hb.code
  obtain ⟨i, hi, hci⟩ := ha.last
  obtain ⟨k, hk, hck⟩ := hb.last
  refine ⟨?_, ⟨k, getLast?_append_some hk, hck⟩, ?_, fun _ => ?_, ?_, ?_⟩
  · simpa [or_imp, forall_and] using ⟨ha.known, hb.known⟩
  · rw [headKeyword?_append ha.ne_nil, ha.head]
  · obtain ⟨x, hx, ho⟩ := ha.first rfl
    exact ⟨x, by rw [List.head?_append, hx, Option.some_or], ho⟩
  · exact fun n hs => absurd hs (append_ne_single ha.ne_nil hb.ne_nil)
  · have ho : (Node.operator "*").fragments "" = .ok [.text "*"] :=
      operator_fragments (by decide) (by decide)
    have hj : joinFactors (es ++ fs) = joinFactors es ++ .operator "*" :: joinFactors fs := by
      rw [joinFactors, joinAfter_append ha.known hi, joinAfter_factor hci (hb.first rfl)]
      rfl
    refine ⟨ps ++ [Fragment.text "*"] :: qs, ?_, ?_⟩
    · rw [hj]
      exact fragmentsEach_append hps (fragmentsEach_cons ho hqs)
    · have := hea.between (l := .term) heb (.ratio .times) (s := "*") rfl hn
        (fun {ts us x y} hx hy => by
          obtain ⟨z, hz, hvz⟩ := hx.times hy
          exact ⟨z, hz, fun K _ m hxv hyv => by rw [hvz, hxv, hyv, hv]⟩)
      simpa using this

theorem lookup_of_name {table : List (String × String)} {s : String}
    (ht : ∀ p ∈ table, isName p.1.toList = false) (h : isName s.toList = true) :
    table.lookup s = none := by
  rw [List.lookup_eq_none_iff]
  intro p hp
  rw [bne_iff_ne]
  rintro rfl
  rw [ht p hp] at h
  cases h

theorem trimString_of_name {s : String} (h : isName s.toList = true) :
    Text.trimString s = s := by
  obtain ⟨hne, hv⟩ := (written_name h).text_visible
  simp only [Token.text] at hne hv
  have hstart : Text.trimStart s.toList = s.toList := by
    cases hs : s.toList with
    | nil => exact absurd hs hne
    | cons c r => simp [Text.trimStart, hv c (by simp [hs])]
  have hend : Text.trimEnd s.toList = s.toList := by
    simpa using trimEnd_visible [] hne hv
  rw [Text.trimString, Text.trim, hstart, hend, String.ofList_toList]

theorem isAsterisk_of_name {s : String} (h : isName s.toList = true) :
    (Node.identifier s).isAsterisk = false := by
  have hl : operators.lookup s = none := lookup_of_name (by decide +kernel) h
  rw [isAsterisk, trimString_of_name h, operatorCode, hl, Option.getD_none, beq_eq_false_iff_ne]
  rintro rfl
  revert h
  decide +kernel

theorem renders_name {s : String} (legal : isVariable s = true) :
    Renders .term (.name s legal) [.identifier s] := by
  have hs := legal
  simp only [isVariable, Bool.and_eq_true, bne_iff_ne] at hs
  have hl : constants.lookup s = none := by
    have hinf : s ≠ "∞" := by
      rintro rfl
      exact absurd hs.1 (by decide +kernel)
    simp [constants, List.lookup_cons, beq_eq_false_iff_ne.2 hs.2, beq_eq_false_iff_ne.2 hinf]
  refine renders_single rfl rfl rfl rfl (isAsterisk_of_name hs.1)
    (by simp [fragments, hl]) (f := [.symbol s ""]) (Encodes.toTerm ?_)
  refine ⟨_, _, ?_, .name hs.1, fun K _ m => ?_, rfl⟩
  · simpa [characters, Fragment.render, Token.text] using Says.one (written_name hs.1).stands
  · simp [Tree.value, Expr.value]

theorem encodes_numeral (n : Numeral) :
    Encodes .atom (.numeral n) [.text (String.ofList n.text)] := by
  have hn := n.ofText?_text
  refine ⟨_, _, ?_, .numeral hn, fun K _ m => rfl, rfl⟩
  simpa [characters, Fragment.render, Token.text] using Says.one (written_numeral hn).stands

theorem renders_numeral (n : Numeral) :
    Renders .term (.numeral n) [.number (String.ofList n.text)] := by
  have hl : constants.lookup (String.ofList n.text) = none := by
    obtain ⟨c, r, ht, hc, -⟩ := n.text_cons
    rw [List.lookup_eq_none_iff]
    intro p hp
    rw [bne_iff_ne, ht]
    intro he
    have hall : ∀ p ∈ constants, p.1.toList.head?.all (fun c => !c.isDigit && c != '.') = true := by
      decide
    have := hall p hp
    rw [← he] at this
    simp only [String.toList_ofList, List.head?_cons, Option.all_some, Bool.and_eq_true,
      Bool.not_eq_true', bne_iff_ne] at this
    rcases hc with hc | hc
    · rw [this.1] at hc
      cases hc
    · exact this.2 hc.1
  exact renders_single rfl rfl rfl rfl rfl (by simp [fragments, hl]) (encodes_numeral n).toTerm

def Call.keyword : Call → Keyword
  | .exp => .exp
  | .sum => .sum
  | .product => .product

theorem headKeyword?_call (f : Call) (ns : List Node) :
    headKeyword? (.operator f.keyword.word :: ns) = some f.keyword :=
  show Keyword.ofOperator? f.keyword.word = some f.keyword by cases f <;> decide

theorem Renders.call (f : Call) (ha : Renders l a [x]) (hn : e.symbols = a.symbols)
    (hv : ∀ (K : Type) [Field K] (m : Meaning K), e.value m = m.call f (a.value m)) :
    Renders .term e [.row [.operator f.keyword.word, x]] := by
  obtain ⟨fx, hfx, hx⟩ := ha.single
  have hw : (Node.operator f.keyword.word).fragments "" = .ok [.text f.keyword.word] :=
    operator_fragments (by cases f <;> decide) (by cases f <;> decide)
  refine renders_single rfl rfl rfl ?_ rfl (f := callCode f.keyword [fx]) ?_ ?_
  · simp only [opensFactor, headKeyword?_call]
    cases f <;> decide
  · have hc : checkArguments f.keyword [x] = .ok () := by cases f <;> rfl
    have hp : fragmentsEach "" [.operator f.keyword.word, x] =
        .ok [[.text f.keyword.word], fx] := fragmentsEach_cons hw (fragmentsEach_cons hfx rfl)
    simp only [fragments, headKeyword?_call, List.tail_cons, hc, hp]
  · cases f with
    | exp => simpa [Call.keyword, callCode] using (hx.call (s := "np.exp(") .exp rfl hn hv).toTerm
    | sum => simpa [Call.keyword, callCode] using (hx.call (s := "np.sum(") .sum rfl hn hv).toTerm
    | product =>
      simpa [Call.keyword, callCode] using (hx.call (s := "np.prod(") .product rfl hn hv).toTerm

theorem headKeyword?_max (ns : List Node) :
    headKeyword? (.operator "max" :: ns) = some .max :=
  show Keyword.ofOperator? "max" = some .max by decide

theorem Renders.maximum {la lb : Level} (ha : Renders la a [x]) (hb : Renders lb b [y]) :
    Renders .term (.max a b) [.row [.operator "max", x, y]] := by
  obtain ⟨fx, hfx, hx⟩ := ha.single
  obtain ⟨fy, hfy, hy⟩ := hb.single
  have hw : (Node.operator "max").fragments "" = .ok [.text "max"] :=
    operator_fragments (by decide) (by decide)
  refine renders_single rfl rfl rfl ?_ rfl (f := callCode .max [fx, fy]) ?_ ?_
  · simp only [opensFactor, headKeyword?_max]
    decide
  · have hc : checkArguments .max [x, y] = .ok () := rfl
    have hp : fragmentsEach "" [.operator "max", x, y] = .ok [[.text "max"], fx, fy] :=
      fragmentsEach_cons hw (fragmentsEach_cons hfx (fragmentsEach_cons hfy rfl))
    simp only [fragments, headKeyword?_max, List.tail_cons, hc, hp]
  · simpa [callCode, List.intersperse] using (hx.maximum hy).toTerm

theorem Renders.quotient {la lb : Level} (ha : Renders la a [x]) (hb : Renders lb b [y]) :
    Renders .term (.div a b) [.fraction x y] := by
  obtain ⟨fx, hfx, hx⟩ := ha.single
  obtain ⟨fy, hfy, hy⟩ := hb.single
  refine renders_single rfl rfl rfl rfl rfl (by simp [fragments, hfx, hfy]; rfl) ?_
  exact hx.grouped.between hy.grouped (.ratio .per) (s := "/") rfl rfl
    (fun {ts us p q} hp hq => ⟨_, .multiplicative .per (.factor (.atom hp)) (.atom hq),
      fun K _ m hpv hqv => by rw [Tree.value, hpv, hqv]; rfl⟩)

theorem Renders.power {la lb : Level} (ha : Renders la a [x]) (hb : Renders lb b [y]) :
    Renders .term (.pow a b) [.sup x y] := by
  obtain ⟨fx, hfx, hx⟩ := ha.single
  obtain ⟨fy, hfy, hy⟩ := hb.single
  refine renders_single rfl rfl rfl rfl rfl
    (by simp [fragments, hb.plain y rfl, hfx, hfy]; rfl) ?_
  exact hx.grouped.between hy.grouped .power (s := "**") rfl rfl
    (fun {ts us p q} hp hq => ⟨_, .factor (.power hp (.atom hq)),
      fun K _ m hpv hqv => by rw [Tree.value, hpv, hqv]; rfl⟩)

theorem Renders.root (ha : Renders l a [x]) : Renders .term (.sqrt a) [.root [x]] := by
  obtain ⟨fx, hfx, hx⟩ := ha.single
  refine renders_single rfl rfl rfl rfl rfl
    (f := parenthesized fx ++ [Fragment.text "**", .text "0.5"])
    (by simp [fragments, fragmentsEach, hfx]) ?_
  exact hx.grouped.between (encodes_numeral .half) .power (s := "**") rfl
    (by simp [Expr.symbols])
    (fun {ts us p q} hp hq => ⟨_, .factor (.power hp (.atom hq)),
      fun K _ m hpv hqv => by rw [Tree.value, hpv, hqv]; rfl⟩)

theorem Renders.group (ha : Renders l a es) :
    Renders .term a [.fenced "(" ")" [.row (joinFactors es)]] := by
  obtain ⟨f, hf, he⟩ := ha.fragments_row
  refine renders_single rfl rfl rfl rfl rfl (f := parenthesized f) ?_ he.grouped.toTerm
  rw [fragments, fragmentsEach_cons hf rfl]
  simp [parenthesized, List.intersperse]

end Rendering

section Explicit

variable {e a b : Expr} {ns ms : List Node} {n : Node}

/-- How loosely the operations of an expression bind. -/
def Expr.level (e : Expr) : Level :=
  if e.isLoose then .sum else .term

theorem Expr.level_tight (h : e.isLoose = false) : e.level = .term :=
  if_neg (by simp [h])

theorem explicit_row (hs : ∀ n ∈ ns, n.isSpace = false) (h : headKeyword? (explicitAll ns) = none) :
    explicit (.row ns) = .row (joinFactors (explicitAll ns)) := by
  rw [headKeyword?_explicitAll hs] at h
  simp [explicit, h, joinRow]

theorem explicit_call (f : Call) (h : n.isSpace = false) :
    explicit (.row [.operator f.keyword.word, n]) = .row [.operator f.keyword.word, explicit n] := by
  have he : explicitAll [.operator f.keyword.word, n] =
      [.operator f.keyword.word, explicit n] := by
    rw [explicitAll_cons rfl, explicitAll_cons h]
    rfl
  rw [explicit, headKeyword?_call, he]
  cases f <;> simp [Call.keyword, joinRow, joinFactors, joinAfter]

theorem operand_not_space (h : ∀ n ∈ ns, n.isSpace = false) :
    ∀ n ∈ e.operand ns, n.isSpace = false := by
  rw [Expr.operand]
  split
  · simp [Node.group, isSpace]
  · exact h

theorem Notates.not_space (h : Notates e ns) : ∀ n ∈ ns, n.isSpace = false := by
  induction h with
  | add _ _ iha ihb =>
    simpa [isSpace, or_imp, forall_and] using ⟨iha, operand_not_space ihb⟩
  | sub _ _ iha ihb =>
    simpa [isSpace, or_imp, forall_and] using ⟨iha, operand_not_space ihb⟩
  | neg _ ih => simpa [isSpace] using operand_not_space ih
  | mul _ _ iha ihb =>
    simpa [or_imp, forall_and] using ⟨operand_not_space iha, operand_not_space ihb⟩
  | _ => simp [isSpace]

/-- An operand is a factor, in parentheses if it needs them. -/
theorem renders_operand (hs : ∀ n ∈ ns, n.isSpace = false)
    (h : Renders e.level e (explicitAll ns)) : Renders .term e (explicitAll (e.operand ns)) := by
  rw [Expr.operand]
  cases he : e.isLoose with
  | false => rwa [Expr.level_tight he] at h
  | true =>
    have hg : explicitAll [Node.group ns] =
        [.fenced "(" ")" [.row (joinFactors (explicitAll ns))]] := by
      rw [Node.group, explicitAll_cons rfl, explicit, explicitAll_cons rfl,
        explicit_row hs h.head]
      rfl
    rw [if_pos rfl, hg]
    exact h.group

theorem renders_part {l : Level} (hs : ∀ k ∈ [n], k.isSpace = false)
    (h : Renders l e (explicitAll [n])) : Renders l e [explicit n] := by
  rwa [explicitAll_cons (hs n (by simp))] at h

/-- The siblings that write an expression say it once their signs are put in. -/
theorem renders_of_notates (h : Notates e ns) : Renders e.level e (explicitAll ns) := by
  induction h with
  | name legal => exact renders_name legal
  | numeral n => exact renders_numeral n
  | row h ih =>
    rw [explicitAll_cons rfl, explicit_row h.not_space ih.head]
    exact ih.row
  | add ha hb iha ihb =>
    rw [explicitAll_append, explicitAll_cons rfl]
    exact Renders.additive .plus iha (renders_operand hb.not_space ihb) rfl (fun _ _ _ => rfl)
  | sub ha hb iha ihb =>
    rw [explicitAll_append, explicitAll_cons rfl]
    exact Renders.additive .minus iha (renders_operand hb.not_space ihb) rfl (fun _ _ _ => rfl)
  | neg h ih =>
    rw [explicitAll_cons rfl]
    exact (renders_operand h.not_space ih).negative rfl (fun _ _ _ => rfl)
  | mul ha hb iha ihb =>
    rw [explicitAll_append]
    exact (renders_operand ha.not_space iha).multiplicative (renders_operand hb.not_space ihb)
      rfl (fun _ _ _ => rfl)
  | div ha hb iha ihb =>
    rw [explicitAll_cons rfl, explicit]
    exact (renders_part ha.not_space iha).quotient (renders_part hb.not_space ihb)
  | pow ha hb iha ihb =>
    rw [explicitAll_cons rfl, explicit]
    exact (renders_part ha.not_space iha).power (renders_part hb.not_space ihb)
  | sqrt h ih =>
    rw [explicitAll_cons rfl, explicit, explicitAll_cons (h.not_space _ (by simp))]
    exact (renders_part h.not_space ih).root
  | @exp a n h ih =>
    rw [explicitAll_cons rfl]
    exact explicit_call .exp (h.not_space n (by simp)) ▸
      (renders_part h.not_space ih).call .exp rfl (fun _ _ _ => rfl)
  | @max a b n k ha hb iha ihb =>
    have he : explicit (.row [.operator "max", n, k]) =
        .row [.operator "max", explicit n, explicit k] := by
      rw [explicit, headKeyword?_max, explicitAll_cons rfl,
        explicitAll_cons (ha.not_space n (by simp)), explicitAll_cons (hb.not_space k (by simp))]
      rfl
    rw [explicitAll_cons rfl, he]
    exact (renders_part ha.not_space iha).maximum (renders_part hb.not_space ihb)
  | @sum a n h ih =>
    rw [explicitAll_cons rfl]
    exact explicit_call .sum (h.not_space n (by simp)) ▸
      (renders_part h.not_space ih).call .sum rfl (fun _ _ _ => rfl)
  | @product a n h ih =>
    rw [explicitAll_cons rfl]
    exact explicit_call .product (h.not_space n (by simp)) ▸
      (renders_part h.not_space ih).call .product rfl (fun _ _ _ => rfl)

end Explicit

def Writes (e : Expr) (n : Node) : Prop :=
  Notates e [n]

theorem Expr.writes_tree (e : Expr) : Writes e e.tree :=
  .row e.notates_siblings

theorem Encodes.read_code {l : Level} {e : Expr} {fs : List Fragment} (h : Encodes l e fs)
    (skipped : List String) :
    ∃ p, read (Expression.code ⟨fs, skipped⟩) = some p ∧
      ∀ (K : Type) [Field K] (m : Meaning K), p.value m = e.value m := by
  obtain ⟨ts, p, hs, hp, hv, -⟩ := h
  obtain ⟨hne, hr⟩ := read_normalize hs hp.toSum
  refine ⟨p, ?_, hv⟩
  have hraw : (Expression.rawLine id ⟨fs, skipped⟩).toList =
      List.intercalate [' '] (fs.map characters) := by
    simp only [Expression.rawLine, Text.joinWith, String.toList_intercalate, List.map_map]
    rfl
  rw [read, Expression.code, Expression.render, normalizeString, hraw]
  have hempty : (String.ofList (normalize (List.intercalate [' '] (fs.map characters)))).isEmpty =
      false := by
    simpa using hne
  rw [hempty]
  simpa using hr

/-- Written arithmetic compiles to code with its variables and its value. -/
theorem compile_written (e : Expr) :
    Writes e e.tree ∧ ∀ n, Writes e n → ∃ c, n.compile "" = .ok c ∧
      (∀ x, x ∈ c.freeSymbols.toList ↔ x ∈ e.symbols) ∧
      ∃ p, read c.code = some p ∧
        ∀ (K : Type) [Field K] (m : Meaning K), p.value m = e.value m := by
  refine ⟨e.writes_tree, fun n hn => ?_⟩
  obtain ⟨f, hf, he⟩ := (renders_part hn.not_space (renders_of_notates hn)).single
  refine ⟨⟨f, n.explicit.skippedTags⟩, by rw [Node.compile, hf], fun x => ?_, he.read_code _⟩
  obtain ⟨-, -, -, -, -, hv⟩ := he
  rw [Expression.freeSymbols, OrderedSet.mem_toList_ofList, hv]

/-- The product of a sum and a root, written as a fence beside a root. -/
theorem compile_written_product :
    ∃ c, Node.compile "" (.row [Node.group [.identifier "x", .operator "+", .number "2"],
        .root [.row [.identifier "y"]]]) = .ok c ∧
      (∀ s, s ∈ c.freeSymbols.toList ↔ s ∈ ["x", "y"]) ∧
      ∃ p, read c.code = some p ∧
        ∀ (K : Type) [Field K] (m : Meaning K),
          p.value m = (m.name "x" + Numeral.value ⟨['2'], false, [], rfl⟩) *
            m.power (m.name "y") Numeral.half.value :=
  (compile_written (.mul
    (.add (.name "x" (by decide)) (.numeral ⟨['2'], false, [], rfl⟩))
    (.sqrt (.name "y" (by decide))))).2 _
    (.row (.mul (.add (.name _) (.numeral ⟨['2'], false, [], rfl⟩)) (.sqrt (.row (.name _)))))

end Arithmetic

end Kinetics
