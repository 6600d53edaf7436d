import Kinetics.Proofs.Reaction.Writing

/-!
# Kinetics.Proofs.Reaction.Netting

Net coefficients. A species that is written several times has the sum of its counts, those of the
left side subtracted, as long as no sum on the way is too large to be exact (`read_net`); the
participants are the species that are written, in the order of declaration.
-/

namespace Kinetics

namespace Coefficient

variable {c d : Coefficient} {k l : Int} {cs : List Coefficient} {ks : List Int}

/-- A coefficient is an exact number. -/
def Is (c : Coefficient) (k : Int) : Prop :=
  ∃ negative magnitude, c = .whole negative magnitude ∧ signed negative magnitude = k

/-- Whole numbers below this one are exact. -/
def bound : Nat := 2 ^ 53

theorem ofMagnitude_exact {n : Nat} (negative : Bool) (h : n < bound) :
    ofMagnitude negative n = .whole negative n := by
  have hlarge : bound ≤ Nat.pow 2 1024 := by decide +kernel
  have hround : round n = n := round_of_lt h
  rw [ofMagnitude, hround, if_pos (Nat.lt_of_lt_of_le h hlarge)]

theorem is_ofMagnitude {n : Nat} (h : n < bound) : Is (ofMagnitude false n) n :=
  ⟨false, n, ofMagnitude_exact false h, rfl⟩

theorem Is.neg (h : Is c k) : Is c.neg (-k) := by
  obtain ⟨negative, n, rfl, rfl⟩ := h
  refine ⟨!negative, n, rfl, ?_⟩
  cases negative <;> simp [signed]

theorem Is.add (h : Is c k) (g : Is d l) (hb : (k + l).natAbs < bound) : Is (c.add d) (k + l) := by
  obtain ⟨s, m, rfl, rfl⟩ := h
  obtain ⟨t, n, rfl, rfl⟩ := g
  simp only [Coefficient.add]
  split
  · rename_i hz
    exact ⟨_, 0, rfl, by rw [hz]; cases s && t <;> rfl⟩
  · rw [ofMagnitude_exact _ hb]
    refine ⟨_, _, rfl, ?_⟩
    generalize signed s m + signed t n = sum
    by_cases hneg : sum < 0
    · simp only [hneg, decide_true, signed, if_true]
      omega
    · simp only [hneg, decide_false, signed, Bool.false_eq_true, if_false]
      omega

/-- A sum from the left is exact if all sums on the way are. -/
theorem Is.foldl (h : Is c k) (hs : List.Forall₂ Is cs ks)
    (hb : ∀ p, p <+: ks → (k + p.sum).natAbs < bound) :
    Is (cs.foldl Coefficient.add c) (k + ks.sum) := by
  induction hs generalizing c k with
  | nil => simpa using h
  | @cons d l cs ks hd _ ih =>
    have hhead : (k + l).natAbs < bound := by simpa using hb [l] (by simp)
    have hrest : ∀ p, p <+: ks → (k + l + p.sum).natAbs < bound := by
      intro p hp
      have := hb (l :: p) (List.cons_prefix_cons.2 ⟨rfl, hp⟩)
      rwa [List.sum_cons, ← Int.add_assoc] at this
    have := ih (h.add hd hhead) hrest
    rwa [List.sum_cons, ← Int.add_assoc]

end Coefficient

namespace Reaction

variable {species : List String} {left right ts : List Term} {name : String}

/-- The counts of a species on one side. -/
def countsOf (name : String) (ts : List Term) : List Int :=
  (ts.filter fun t => t.species == name).map fun t => (t.count : Int)

/-- The counts of a species in the order in which they are added up. -/
def signedCounts (name : String) (left right : List Term) : List Int :=
  (countsOf name left).map (- ·) ++ countsOf name right

section Net

theorem signed_is (hb : ∀ t ∈ left ++ right, t.count < Coefficient.bound) :
    List.Forall₂ Coefficient.Is
      (((signedEntries left right).filter fun e => e.1 == name).map Prod.snd)
      (signedCounts name left right) := by
  have hside (ts : List Term) (hb : ∀ t ∈ ts, t.count < Coefficient.bound) :
      List.Forall₂ Coefficient.Is (((ts.map Term.entry).filter fun e => e.1 == name).map Prod.snd)
        (countsOf name ts) := by
    induction ts with
    | nil => exact .nil
    | cons t ts ih =>
      obtain ⟨ht, hts⟩ := List.forall_mem_cons.1 hb
      simp only [List.map_cons, List.filter_cons, countsOf, Term.entry]
      split
      · rw [List.map_cons, List.map_cons]
        refine List.Forall₂.cons ?_ (ih hts)
        simpa only using Coefficient.is_ofMagnitude ht
      · exact ih hts
  have hneg {cs : List (String × Coefficient)} {ks : List Int}
      (h : List.Forall₂ Coefficient.Is ((cs.filter fun e => e.1 == name).map Prod.snd) ks) :
      List.Forall₂ Coefficient.Is
        (((cs.map fun e => (e.1, e.2.neg)).filter fun e => e.1 == name).map Prod.snd)
        (ks.map (- ·)) := by
    rw [List.filter_map, List.map_map, List.forall₂_map_right_iff]
    rw [List.forall₂_map_left_iff] at h ⊢
    exact h.imp fun e k he => he.neg
  rw [signedEntries, List.filter_append, List.map_append, signedCounts]
  exact List.rel_append (hneg (hside left fun t ht => hb t (by simp [ht])))
    (hside right fun t ht => hb t (by simp [ht]))

/-- The net coefficient of a species that is written, unless a sum is too large. -/
theorem net?_is (hb : ∀ t ∈ left ++ right, t.count < Coefficient.bound)
    (hs : ∀ p, p <+: signedCounts name left right → p.sum.natAbs < Coefficient.bound)
    {c : Coefficient} (h : net? (signedEntries left right) name = some c) :
    c.Is (signedCounts name left right).sum := by
  have his : List.Forall₂ Coefficient.Is _ (signedCounts name left right) := signed_is hb
  simp only [net?] at h
  split at h
  · cases h
  · rename_i e es he
    cases h
    rw [he, List.map_cons] at his
    generalize signedCounts name left right = ks at his hs
    cases his with
    | @cons _ k _ ks hk hks =>
      have := hk.foldl hks fun p hp => by
        simpa using hs (k :: p) (List.cons_prefix_cons.2 ⟨rfl, hp⟩)
      rwa [List.foldl_map, ← List.sum_cons] at this

end Net

section Order

variable {names : List String} {a b : String}

theorem idxOf_lt_of_filter {p : String → Bool} (ha : p a = true) (hb : p b = true)
    (h : (names.filter p).idxOf a < (names.filter p).idxOf b) : names.idxOf a < names.idxOf b := by
  induction names with
  | nil => exact h
  | cons c names ih =>
    by_cases hca : c = a
    · subst hca
      have hcb : c ≠ b := by
        rintro rfl
        exact absurd h (Nat.lt_irrefl _)
      rw [List.idxOf_cons_self, List.idxOf_cons_ne _ hcb]
      exact Nat.succ_pos _
    · by_cases hcb : c = b
      · subst hcb
        rw [List.filter_cons_of_pos hb, List.idxOf_cons_self] at h
        exact absurd h (Nat.not_lt_zero _)
      · rw [List.idxOf_cons_ne _ hca, List.idxOf_cons_ne _ hcb]
        refine Nat.succ_lt_succ (ih ?_)
        by_cases hc : p c = true
        · rw [List.filter_cons_of_pos hc, List.idxOf_cons_ne _ hca, List.idxOf_cons_ne _ hcb] at h
          exact Nat.lt_of_succ_lt_succ h
        · rwa [List.filter_cons_of_neg hc] at h

/-- Names stand in the order in which they occur first. -/
theorem pairwise_eraseDups (names : List String) :
    names.eraseDups.Pairwise fun a b => names.idxOf a < names.idxOf b := by
  induction hn : names.length using Nat.strong_induction_on generalizing names with
  | _ n ih =>
    cases names with
    | nil => simp
    | cons name names =>
      have hlt : (names.filter fun other => !other == name).length < n := by
        rw [← hn, List.length_cons]
        exact Nat.lt_succ_of_le (List.length_filter_le _ _)
      have hmem : ∀ b ∈ (names.filter fun other => !other == name).eraseDups, name ≠ b := by
        intro b hb
        rw [List.mem_eraseDups, List.mem_filter] at hb
        rintro rfl
        simp at hb
      rw [List.eraseDups_cons, List.pairwise_cons]
      constructor
      · intro b hb
        rw [List.idxOf_cons_self, List.idxOf_cons_ne _ (hmem b hb)]
        exact Nat.succ_pos _
      · refine List.Pairwise.imp_of_mem (fun {a b} ha hb hlt => ?_) (ih _ hlt _ rfl)
        have hne {c : String} (hc : name ≠ c) : (!c == name) = true := by
          simpa using Ne.symm hc
        rw [List.idxOf_cons_ne _ (hmem a ha), List.idxOf_cons_ne _ (hmem b hb)]
        exact Nat.succ_lt_succ (idxOf_lt_of_filter (hne (hmem a ha)) (hne (hmem b hb)) hlt)

theorem pairwise_participantsOf (species : List String) (signed : List (String × Coefficient)) :
    (participantsOf species signed).Pairwise fun p q =>
      species.idxOf p.1 < species.idxOf q.1 := by
  rw [participantsOf, List.pairwise_filterMap]
  refine (pairwise_eraseDups species).imp fun {a b} hlt p hp q hq => ?_
  obtain ⟨_, -, rfl⟩ := Option.map_eq_some_iff.1 hp
  obtain ⟨_, -, rfl⟩ := Option.map_eq_some_iff.1 hq
  exact hlt

end Order

section Participants

variable {signed : List (String × Coefficient)} {c : Coefficient}

theorem mem_participantsOf : (name, c) ∈ participantsOf species signed ↔
    name ∈ species ∧ net? signed name = some c := by
  simp [participantsOf]

theorem isSome_net? : (net? signed name).isSome ↔ name ∈ signed.map Prod.fst := by
  have hmem : name ∈ signed.map Prod.fst ↔ (signed.filter fun e => e.1 == name) ≠ [] := by
    rw [Ne, List.filter_eq_nil_iff]
    simp
  rw [hmem, net?]
  split <;> simp_all

theorem map_fst_signedEntries :
    (signedEntries left right).map Prod.fst = (left ++ right).map Term.species := by
  simp [signedEntries, Function.comp_def, Term.entry]

theorem sum_signedCounts : (signedCounts name left right).sum =
    (countsOf name right).sum - (countsOf name left).sum := by
  have hneg (ks : List Int) : (ks.map (- ·)).sum = -ks.sum := by
    induction ks with
    | nil => rfl
    | cons k ks ih => rw [List.map_cons, List.sum_cons, List.sum_cons, ih, Int.neg_add]
  rw [signedCounts, List.sum_append, hneg]
  omega

/-- The participants of a written reaction are the species that are written, in the order of
declaration, with the difference of what stands on the right and on the left. -/
theorem read_net (a : Arrow) (hl : left ≠ []) (hr : right ≠ [])
    (h : ∀ t ∈ left ++ right,
      IsSpecies t.species ∧ t.species ∈ species ∧ t.count < Coefficient.bound)
    (hs : ∀ name p, p <+: signedCounts name left right → p.sum.natAbs < Coefficient.bound) :
    ∃ r, read species (writing a (left.map Term.written) (right.map Term.written)) = .ok r ∧
      r.participants.Pairwise (fun p q => species.idxOf p.1 < species.idxOf q.1) ∧
      (∀ name, name ∈ r.participants.map Prod.fst ↔ ∃ t ∈ left ++ right, t.species = name) ∧
      ∀ p ∈ r.participants, p.2.Is ((countsOf p.1 right).sum - (countsOf p.1 left).sum) := by
  have hread := read_writing a hl hr (fun t ht => ⟨(h t ht).1, (h t ht).2.1⟩) (full_texts left)
    (full_texts right)
  refine ⟨_, hread, pairwise_participantsOf _ _, fun name => ?_, fun p hp => ?_⟩
  · have hmem : name ∈ (signedEntries left right).map Prod.fst ↔
        ∃ t ∈ left ++ right, t.species = name := by
      rw [map_fst_signedEntries, List.mem_map]
    have hfst : name ∈ (participantsOf species (signedEntries left right)).map Prod.fst ↔
        name ∈ species ∧ (net? (signedEntries left right) name).isSome := by
      simp [mem_participantsOf, Option.isSome_iff_exists]
    rw [hfst, isSome_net?, hmem, and_iff_right_iff_imp]
    rintro ⟨t, ht, rfl⟩
    exact (h t ht).2.1
  · obtain ⟨-, hnet⟩ := mem_participantsOf.1 hp
    rw [← sum_signedCounts]
    exact net?_is (fun t ht => (h t ht).2.2) (hs p.1) hnet

theorem sum_countsOf_le (name : String) (ts : List Term) :
    ((countsOf name ts).map Int.natAbs).sum ≤ (ts.map Term.count).sum := by
  induction ts with
  | nil => exact Nat.le_refl _
  | cons t ts ih =>
    simp only [countsOf] at ih ⊢
    rw [List.map_cons, List.sum_cons, List.filter_cons]
    split
    · rw [List.map_cons, List.map_cons, List.sum_cons, Int.natAbs_natCast]
      omega
    · omega

/-- No sum on the way is larger than that of all counts. -/
theorem natAbs_sum_le {p : List Int} (hp : p <+: signedCounts name left right) :
    p.sum.natAbs ≤ ((left ++ right).map Term.count).sum := by
  have habs (ks : List Int) : ks.sum.natAbs ≤ (ks.map Int.natAbs).sum := by
    induction ks with
    | nil => exact Nat.le_refl _
    | cons k ks ih =>
      have := Int.natAbs_add_le k ks.sum
      rw [List.sum_cons, List.map_cons, List.sum_cons]
      omega
  obtain ⟨rest, hrest⟩ := hp
  have hsum := congrArg (fun ks => (ks.map Int.natAbs).sum) hrest
  simp only [signedCounts, List.map_append, List.map_map, List.sum_append] at hsum
  have hneg : Int.natAbs ∘ (- ·) = Int.natAbs := funext Int.natAbs_neg
  rw [hneg] at hsum
  have hp := habs p
  have hl := sum_countsOf_le name left
  have hr := sum_countsOf_le name right
  rw [List.map_append, List.sum_append]
  omega

/-- A catalyst takes part with nought, and ions are kept apart from the signs between them. -/
theorem read_net_catalyst :
    (∀ t ∈ ([⟨1, "Pt"⟩, ⟨2, "H+"⟩, ⟨1, "H+"⟩] ++ [⟨3, "2-x"⟩, ⟨1, "Pt"⟩] : List Term),
      IsSpecies t.species ∧ t.species ∈ ["H+", "2-x", "Pt"] ∧ t.count < Coefficient.bound) ∧
    (∀ name p, p <+: signedCounts name [⟨1, "Pt"⟩, ⟨2, "H+"⟩, ⟨1, "H+"⟩]
      [⟨3, "2-x"⟩, ⟨1, "Pt"⟩] → p.sum.natAbs < Coefficient.bound) ∧
    ∃ r, read ["H+", "2-x", "Pt"] "1 Pt + 2 H+ + 1 H+ -> 3 2-x + 1 Pt" = .ok r ∧
      r.participants.Pairwise (fun p q =>
        ["H+", "2-x", "Pt"].idxOf p.1 < ["H+", "2-x", "Pt"].idxOf q.1) ∧
      r.participants =
        [("H+", .whole true 3), ("2-x", .whole false 3), ("Pt", .whole false 0)] := by
  have h : ∀ t ∈ ([⟨1, "Pt"⟩, ⟨2, "H+"⟩, ⟨1, "H+"⟩] ++ [⟨3, "2-x"⟩, ⟨1, "Pt"⟩] : List Term),
      IsSpecies t.species ∧ t.species ∈ ["H+", "2-x", "Pt"] ∧ t.count < Coefficient.bound := by
    decide +kernel
  have hs : ∀ name p, p <+: signedCounts name [⟨1, "Pt"⟩, ⟨2, "H+"⟩, ⟨1, "H+"⟩]
      [⟨3, "2-x"⟩, ⟨1, "Pt"⟩] → p.sum.natAbs < Coefficient.bound := by
    intro name p hp
    exact Nat.lt_of_le_of_lt (natAbs_sum_le hp) (by decide +kernel)
  obtain ⟨r, hr, hpair, -, -⟩ := read_net .single (by simp) (by simp) h hs
  refine ⟨h, hs, r, hr, hpair, ?_⟩
  have hread : read ["H+", "2-x", "Pt"] "1 Pt + 2 H+ + 1 H+ -> 3 2-x + 1 Pt" =
      .ok ⟨"1 Pt + 2 H+ + 1 H+ -> 3 2-x + 1 Pt",
        [("H+", .whole true 3), ("2-x", .whole false 3), ("Pt", .whole false 0)]⟩ := by
    decide +kernel
  cases hread.symm.trans hr
  rfl

/-- A sum that is too large on the way is rounded, though what remains in the end is small. -/
theorem read_rounded :
    (∀ t ∈ ([⟨9007199254740991, "A"⟩, ⟨9007199254740990, "A"⟩] ++ [⟨9007199254740991, "A"⟩] :
      List Term), IsSpecies t.species ∧ t.species ∈ ["A"] ∧ t.count < Coefficient.bound) ∧
    (countsOf "A" [⟨9007199254740991, "A"⟩]).sum -
        (countsOf "A" [⟨9007199254740991, "A"⟩, ⟨9007199254740990, "A"⟩]).sum =
      -9007199254740990 ∧
    read ["A"] (writing .tip [Term.written ⟨9007199254740991, "A"⟩,
        Term.written ⟨9007199254740990, "A"⟩] [Term.written ⟨9007199254740991, "A"⟩]) =
      .ok ⟨"9007199254740991 A + 9007199254740990 A > 9007199254740991 A",
        [("A", .whole true 9007199254740989)]⟩ ∧
    ¬(Coefficient.whole true 9007199254740989).Is (-9007199254740990) := by
  refine ⟨by decide +kernel, by decide +kernel, by decide +kernel, ?_⟩
  rintro ⟨negative, magnitude, h, hsigned⟩
  cases h
  exact absurd hsigned (by decide)

end Participants

end Reaction

end Kinetics
