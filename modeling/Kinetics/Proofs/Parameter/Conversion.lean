import Kinetics.Proofs.Decimal.Binary
import Kinetics.Proofs.Parameter.Values

/-!
# Kinetics.Proofs.Parameter.Conversion

Which ratios apply. The ratio of a unit counts as none up to the distance from one to the next
binary number, so that a small one leaves a value as it is though it is not zero (`rescale_iff`).
The ratio is compared with that distance as an exact number (`negligibleRatio_eq`). The entries of
the parameter table and the constants of the program are converted by the same rule.
-/

namespace Kinetics

namespace Scale

/-- Adds the intercept, if there is one. -/
def shift {R : Type} [Add R] (b : Option R) (x : R) : R :=
  match b with
  | some b => x + b
  | none => x

/-- An exact ratio counts as none up to the distance from one to the next binary number, and within
four steps between binary numbers from zero. -/
def vanishes (r : ℚ) : Bool :=
  |r| ≤ 1 / 2 ^ 52 ∨ |r| ≤ 4 / 2 ^ 1074

section Exact

theorem vanishes_iff {r : ℚ} : vanishes r = true ↔ |r| ≤ 1 / 2 ^ 52 := by
  have hsteps : (4 : ℚ) / 2 ^ 1074 ≤ 1 / 2 ^ 52 := by
    have hpow : (2 : ℚ) ^ 54 ≤ 2 ^ 1074 := pow_le_pow_right₀ (by norm_num) (by norm_num)
    rw [div_le_div_iff₀ (by norm_num) (pow_pos (by norm_num) _), one_mul]
    exact le_trans (by norm_num) hpow
  simp only [vanishes, decide_eq_true_eq]
  exact ⟨fun h => h.elim id fun h => h.trans hsteps, .inl⟩

theorem shift_eq (b : Option ℚ) (x : ℚ) : shift b x = x + b.getD 0 := by
  cases b with
  | none => exact (add_zero x).symm
  | some b => rfl

variable {R : Type} [Mul R] [Add R] {negligible : R → Bool} {r : R} {b : Option R}

theorem toStandard_eq (x : R) :
    toStandard negligible ⟨some r, b⟩ x = shift b (if negligible r then x else x * r) := rfl

theorem rescale_counts (h : negligible r = false) (v : ParameterValue R) :
    rescale negligible (some ⟨some r, b⟩) v = v.map fun x => shift b (x * r) := by
  simp only [rescale, funext toStandard_eq, h, Bool.false_eq_true, if_false]

theorem rescale_vanishes (h : negligible r = true) (v : ParameterValue R) :
    rescale negligible (some ⟨some r, b⟩) v = v.map (shift b) := by
  simp only [rescale, funext toStandard_eq, h, if_true]

/-- The ratio of a unit applies to all values just if it is beyond the bound. -/
theorem rescale_iff (r : ℚ) (b : Option ℚ) :
    (∀ v, rescale vanishes (some ⟨some r, b⟩) v = v.map fun x => x * r + b.getD 0) ↔
      1 / 2 ^ 52 < |r| := by
  rw [← not_le, ← vanishes_iff, Bool.not_eq_true]
  constructor
  · intro h
    rw [Bool.eq_false_iff]
    intro hv
    have hone := h (.scalar 1)
    rw [rescale_vanishes hv] at hone
    simp only [ParameterValue.map, shift_eq, ParameterValue.scalar.injEq, one_mul,
      add_left_inj] at hone
    rw [← hone, vanishes_iff] at hv
    norm_num at hv
  · intro h v
    rw [rescale_counts h]
    simp only [shift_eq]

end Exact

end Scale

theorem unpack_bound : (2.220446049250313e-16 : Float).toModel.unpack =
    .finite .positive (2 ^ 52) (-104) (by decide) := rfl

/-- The bound for ratios is compared with as an exact number. -/
theorem negligibleRatio_eq (r : Float) :
    negligibleRatio r = (Binary.exactly r.toModel.unpack).any Scale.vanishes := by
  have hbound : (2 : ℚ) ^ 52 * 2 ^ (-104 : Int) = 1 / 2 ^ 52 := by norm_num
  have hle : negligibleRatio r = true ↔
      r.abs.toModel.unpack.le (2.220446049250313e-16 : Float).toModel.unpack = true := by
    rw [negligibleRatio, decide_eq_true_iff]
    exact decide_eq_true_iff
  rw [Bool.eq_iff_iff, hle, Binary.unpack_abs, unpack_bound,
    Binary.abs_le_iff (Binary.canonical_unpack r) (by decide), hbound]
  simp only [Option.any_eq_true, Scale.vanishes_iff]

/-- The conversion by a ratio and an intercept. The ratio applies unless its exact value counts as
none. -/
def Scale.convert (r : Float) (b : Option Float) (x : Float) : Float :=
  shift b (if (Binary.exactly r.toModel.unpack).any vanishes then x else x * r)

theorem Scale.toStandard_convert {r : Float} {b : Option Float} (x : Float) :
    toStandard negligibleRatio ⟨some r, b⟩ x = convert r b x := by
  rw [toStandard_eq, negligibleRatio_eq]
  rfl

namespace ParameterTable

variable {o : Ontology} {s : Selection} {t : Topology} {m : Model} {known : List KnownValue}
  {table : ParameterTable} {k : ParameterIndex}

/-- The entries of a variable with a ratio are converted by it. -/
theorem value?_convert (h : build o known t m = .ok table) {v : Variable} {r : Float}
    {b : Option Float} (he : Entry o t m v k) (hu : o.unitOf v = some ⟨some r, b⟩) :
    table.value? k = ((knownAt known k).or (v.fixedValue.map .scalar)).map
      (ParameterValue.map (Scale.convert r b)) := by
  have hin : k ∈ table.indices := (mem_indices_build h).2 (.inl (tables_iff.2 ⟨v, he⟩))
  have hvalue := (value?_build h hin).1 v he
  rw [hu] at hvalue
  have hmap : Scale.rescale negligibleRatio (some ⟨some r, b⟩) =
      ParameterValue.map (Scale.convert r b) := by
    funext x
    simp only [Scale.rescale, funext Scale.toStandard_convert]
  rw [hvalue, hmap]

end ParameterTable

namespace Program

open Statement

/-- The code of a value at every point of a shape. -/
def fullCode (t : Topology) (s : Shape) (value : String) : String :=
  if s.isScalar then value
  else "np.full(" ++ shapeLiteral (t.extents s) ++ ", " ++ value ++ ")"

/-- A constant of a variable with a ratio is converted by it. -/
theorem Plan.setConstants_convert {p : Plan} {ss : List Statement} (h : p.setConstants = .ok ss)
    {name : String} {v : Variable} {r : Float} {b : Option Float}
    (hd : p.model.definitions.find? name = some .constant)
    (hv : p.ontology.variableOf name = .ok v) (hu : p.ontology.unitOf v = some ⟨some r, b⟩) :
    ∃ x e, v.fixedValue = some x ∧ p.names.entryOf name = .ok e ∧
      define e.name (fullCode p.topology e.shape (floatLiteral (Scale.convert r b x))) ∈ ss := by
  have hmem := Dict.find?_eq_some_iff.1 hd
  obtain ⟨set, hset⟩ := exists_of_collect h hmem
  have hown := hset
  simp only [beq_self_eq_true, if_true, bind_ok, pure_ok] at hown
  obtain ⟨c, hc, rfl⟩ := hown
  simp only [setConstant, bind_ok] at hc
  obtain ⟨v', hv', hc⟩ := hc
  cases hv.symm.trans hv'
  split at hc
  · cases hc
  · rename_i x hx
    simp only [hu, Option.elim_some, Scale.toStandard_convert, bind_ok, pure_ok] at hc
    obtain ⟨e, he, rfl⟩ := hc
    exact ⟨x, e, hx, he, (mem_collect h).2 ⟨_, hmem, _, hset, List.mem_singleton_self _⟩⟩

end Program

namespace Scale

open Program Statement ParameterTable

/-- Of exact numbers a ratio applies just if it is beyond the bound. Otherwise only the intercept
does, whether the ratio is zero or not. A table holds values, and a program constants, that are
converted in this way. -/
theorem ratios_apply_iff {o : Ontology} {known : List KnownValue} {t : Topology} {m : Model}
    {table : ParameterTable} {p : Plan} {ss : List Statement}
    (htable : build o known t m = .ok table) (hset : p.setConstants = .ok ss)
    (r : ℚ) (b : Option ℚ) :
    ((∀ v, rescale vanishes (some ⟨some r, b⟩) v = v.map fun x => x * r + b.getD 0) ↔
      1 / 2 ^ 52 < |r|) ∧
    (|r| ≤ 1 / 2 ^ 52 →
      ∀ v, rescale vanishes (some ⟨some r, b⟩) v = v.map fun x => x + b.getD 0) ∧
    (∀ k v ratio intercept, Entry o t m v k → o.unitOf v = some ⟨some ratio, intercept⟩ →
      table.value? k = ((knownAt known k).or (v.fixedValue.map .scalar)).map
        (ParameterValue.map (convert ratio intercept))) ∧
    ∀ name v ratio intercept, p.model.definitions.find? name = some .constant →
      p.ontology.variableOf name = .ok v →
      p.ontology.unitOf v = some ⟨some ratio, intercept⟩ →
      ∃ x e, v.fixedValue = some x ∧ p.names.entryOf name = .ok e ∧
        define e.name (fullCode p.topology e.shape
          (floatLiteral (convert ratio intercept x))) ∈ ss := by
  refine ⟨rescale_iff r b, fun hr v => ?_, fun k v _ _ he hu => value?_convert htable he hu,
    fun name v _ _ hd hv hu => p.setConstants_convert hset hd hv hu⟩
  rw [rescale_vanishes (vanishes_iff.2 hr)]
  simp only [funext (shift_eq b)]

end Scale

namespace Simulation

open Program Statement

section Charging

/-- The conversion with a charge that is fixed in elementary charges, once as an input and once as a
constant, and a time that is fixed in hours. -/
def charging : Ontology where
  quantities := ((conversion.quantities.insert "q"
      ⟨.modelParameter, "q", some "charge", Dict.empty, Dict.empty, some 5⟩).insert "e"
      ⟨.constant, "e", some "charge", Dict.empty, Dict.empty, some 5⟩).insert "h"
      ⟨.modelParameter, "h", some "hour", Dict.empty, Dict.empty, some 2⟩
  laws := Dict.ofList
    [("Balance", ⟨"<mi>r</mi>", some "S",
      OrderedSet.ofList ["Stoichiometric_Coefficient", "e", "h", "q", "r"], Dict.empty, none, none,
      some "Z", some "L", some "C", none⟩)]
  units := Dict.ofList [("charge", ⟨some 1.602176634e-19, none⟩), ("hour", ⟨some 3600, none⟩)]

/-- The charge is an input and a constant, the time an input. -/
def chargingPlanned (p : Plan) : Bool :=
  p.model.definitions.find? "q" = some .leaf ∧ p.model.definitions.find? "h" = some .leaf ∧
    p.model.definitions.find? "e" = some .constant ∧
      (p.names.entryOf "e").toOption = some ⟨"e", .scalar⟩

/-- A ratio that is not zero leaves the charge at 5, as an exact number, as an input and as a
constant; the time is in seconds. -/
theorem ratios_apply_iff_charging : (1.602176634e-19 : Float) ≠ 0 ∧
    Scale.rescale Scale.vanishes (some ⟨some 1.602176634e-19, none⟩) (.scalar 5) = .scalar 5 ∧
    ∃ s p constants, assemble charging conversionContext .standard = .ok s ∧
      planOf charging conversionContext .standard = .ok p ∧ p.setConstants = .ok constants ∧
      s.table.value? (.scalar "q") = some (.scalar 5) ∧
      s.table.value? (.scalar "h") = some (.scalar (2 * 3600)) ∧
      define "e" (floatLiteral 5) ∈ constants := by
  have hcharge (x : Float) : Scale.convert 1.602176634e-19 none x = x := by
    rw [← Scale.toStandard_convert, Scale.toStandard_eq, if_pos (by decide +kernel)]
    rfl
  have htime : Scale.convert 3600 none 2 = 2 * 3600 := by
    rw [← Scale.toStandard_convert, Scale.toStandard_eq, if_neg (by decide +kernel)]
    rfl
  obtain ⟨s, hs⟩ := exists_ok (show (assemble charging conversionContext .standard).toBool = true
    by decide +kernel)
  obtain ⟨p, hp, htable, hstatements, -⟩ := assemble_ok hs
  obtain ⟨preparation, -, -, hpreparation, -, -, -⟩ := statementsOf_ok hstatements
  simp only [Plan.prepare, bind_ok] at hpreparation
  obtain ⟨constants, hset, -⟩ := hpreparation
  have hplanned : (planOf charging conversionContext .standard).toOption.any chargingPlanned =
      true := by decide +kernel
  rw [hp] at hplanned
  change chargingPlanned p = true at hplanned
  simp only [chargingPlanned, decide_eq_true_eq] at hplanned
  obtain ⟨hq, hh, he, hentry⟩ := hplanned
  have hontology : p.ontology = charging := by
    obtain ⟨-, -, plan, hplan, rfl⟩ := planOf_ok hp
    obtain ⟨_, _, _, _, -, -, -, hresult⟩ := Plan.ofModel_ok hplan
    rw [hresult]
  obtain ⟨-, hexact, hvalues, hconstants⟩ :=
    Scale.ratios_apply_iff htable hset 1.602176634e-19 none
  refine ⟨by decide +kernel, ?_, s, p, constants, hs, hp, hset, ?_, ?_, ?_⟩
  · rw [hexact (by norm_num [abs_of_nonneg])]
    exact congrArg ParameterValue.scalar (add_zero 5)
  · rw [hvalues (.scalar "q") _ _ _
      ⟨⟨by decide, rfl, .inl hq⟩, .scalar, rfl, List.mem_singleton_self _⟩ rfl]
    exact congrArg (some ∘ ParameterValue.scalar) (hcharge 5)
  · rw [hvalues (.scalar "h") _ _ _
      ⟨⟨by decide, rfl, .inl hh⟩, .scalar, rfl, List.mem_singleton_self _⟩ rfl]
    exact congrArg (some ∘ ParameterValue.scalar) htime
  · have hconstant := hconstants "e"
    rw [hontology] at hconstant
    obtain ⟨x, e, hx, hname, hin⟩ := hconstant _ _ _ he rfl rfl
    rw [hname] at hentry
    cases hx
    cases hentry
    rw [hcharge] at hin
    exact hin

end Charging

end Simulation

end Kinetics
