import Mathlib
import Fluxion.Number.Numeral
import Fluxion.Proofs.Number.Bits
import Fluxion.Proofs.Number.Units

/-!
# Fluxion.Proofs.Number.SignedZero

Numbers up to the sign of zero.

Simplification drops the sign of zero where evaluation keeps it, so the two agree on numbers that
are equal or both zero (`Arith.Alike`).  Where the operations take such numbers to such numbers
(`SignedZero`), the sign of a zero never grows into a difference between other numbers.

Sums, differences, products and quotients of double precision numbers follow from their parts.  A
power is what the machine's function says, of which only its documented values at zero are used
(`Binary64.PowerAtZero`); so the function is a parameter here, and double precision numbers with
powers by it are a type of their own (`Binary64.Powered`).

* `Binary64.alike_add`, `Binary64.alike_sub`, `Binary64.alike_mul`, `Binary64.alike_div`;
* `Binary64.signedZero`: double precision numbers have the property.
-/

namespace Fluxion

namespace Arith

variable {α : Type} [Arith α]

/-- Equal up to the sign of zero. -/
def Alike (v w : α) : Prop := v = w ∨ isZero v = true ∧ isZero w = true

theorem Alike.refl (v : α) : Alike v v := .inl rfl

/-- Numbers that are alike are both zero or neither. -/
theorem Alike.isZero_eq {v w : α} (h : Alike v w) : isZero v = isZero w := by
  rcases h with rfl | ⟨hv, hw⟩
  · rfl
  · rw [hv, hw]

/-- Numbers that are not zero are alike only if they are equal. -/
theorem Alike.eq {v w : α} (h : Alike v w) (hw : isZero w = false) : v = w := by
  rcases h with rfl | ⟨-, hw'⟩
  · rfl
  · rw [hw] at hw'
    cases hw'

/-- Numbers that are alike to one are alike. -/
theorem Alike.trans {u v w : α} (h : Alike u v) (h' : Alike v w) : Alike u w := by
  rcases h with rfl | ⟨hu, hv⟩
  · exact h'
  · exact .inr ⟨hu, h'.isZero_eq ▸ hv⟩

end Arith

open Arith

/-- Numbers among which zero may have a sign that makes no other difference. -/
class SignedZero (α : Type) [Arith α] : Prop extends LawfulArith α where
  nonneg_of_isZero {v : α} : isZero v = true → nonneg v = true
  finite_of_isZero {v : α} : isZero v = true → finite v = true
  near_of_isZero {v : α} : isZero v = true → near v zero = true
  isZero_neg {v : α} : isZero v = true → isZero (neg v) = true
  neg_neg (v : α) : neg (neg v) = v
  alike_add_zero (v : α) : Alike (add v zero) v
  compute_alike {op : BinOp} {v v' w w' x : α} : finite w = true → Alike v' v → Alike w' w →
    op.compute v w = .ok x → ∃ x', op.compute v' w' = .ok x' ∧ Alike x' x
  /-- Zero has no power of a negative exponent. -/
  pow_ne_ok {v w x : α} : isZero v = true → finite w = true → negative w = true → pow v w ≠ .ok x

/-! ## double precision numbers -/

namespace Binary64

open Float.Model Float.Model.UnpackedFloat

/-- A number is zero if it is a zero of some sign. -/
theorem isZero_iff_parts {v : Float} : isZero v = true ↔ ∃ s, parts v = .zero s := by
  have hzero : isZero v = (parts v).beq (.zero .positive) := rfl
  rw [hzero]
  cases parts v with
  | notANumber => simp [UnpackedFloat.beq, UnpackedFloat.compare]
  | infinity s | finite s => cases s <;> simp [UnpackedFloat.beq, UnpackedFloat.compare]
  | zero s => simp [UnpackedFloat.beq, UnpackedFloat.compare]

section

variable {v : Float}

/-- Zero is not below zero, whatever its sign. -/
theorem nonneg_of_isZero (h : isZero v = true) : nonneg v = true := by
  obtain ⟨s, hs⟩ := isZero_iff_parts.mp h
  rw [nonneg_eq, hs]
  rfl

/-- Zero is finite. -/
theorem finite_of_isZero (h : isZero v = true) : finite v = true := by
  obtain ⟨s, hs⟩ := isZero_iff_parts.mp h
  rw [finite_eq, hs]
  rfl

/-- Zero is near zero. -/
theorem near_of_isZero (h : isZero v = true) : near v zero = true := by
  obtain ⟨s, hs⟩ := isZero_iff_parts.mp h
  rw [near_zero_eq, hs]
  rfl

/-- The opposite of zero is zero. -/
theorem isZero_neg (h : isZero v = true) : isZero (-v) = true := by
  obtain ⟨s, hs⟩ := isZero_iff_parts.mp h
  rw [isZero_iff_parts, parts_neg, hs]
  exact ⟨-s, rfl⟩

end

/-! ## operations up to the sign of zero -/

/-- Parts that are equal up to the sign of zero. -/
inductive AlikeParts : UnpackedFloat → UnpackedFloat → Prop where
  | refl (u : UnpackedFloat) : AlikeParts u u
  | zero (s t : Sign) : AlikeParts (.zero s) (.zero t)

/-- Numbers are alike as their unpacked forms are. -/
theorem alike_iff_parts {v w : Float} : Alike v w ↔ AlikeParts (parts v) (parts w) := by
  constructor
  · intro h
    rcases h with rfl | ⟨hv, hw⟩
    · exact .refl _
    · obtain ⟨s, hs⟩ := isZero_iff_parts.mp hv
      obtain ⟨t, ht⟩ := isZero_iff_parts.mp hw
      rw [hs, ht]
      exact .zero s t
  · intro h
    generalize hv : parts v = a at h
    generalize hw : parts w = b at h
    cases h with
    | refl => exact .inl (parts_injective (hv.trans hw.symm))
    | zero s t => exact .inr ⟨isZero_iff_parts.mpr ⟨s, hv⟩, isZero_iff_parts.mpr ⟨t, hw⟩⟩

/-- What is alike in parts is stored alike. -/
theorem alike_pack {a b : UnpackedFloat} (h : AlikeParts a b) :
    Alike (Float.ofModel (Float.Model.pack a)) (Float.ofModel (Float.Model.pack b)) := by
  cases h with
  | refl => exact .refl _
  | zero s t =>
      exact .inr ⟨isZero_iff_parts.mpr ⟨s, unpack_pack (.zero s)⟩,
        isZero_iff_parts.mpr ⟨t, unpack_pack (.zero t)⟩⟩

/-- Unpacked numbers that are alike to one are alike. -/
theorem AlikeParts.trans {a b c : UnpackedFloat} (h : AlikeParts a b) (h' : AlikeParts b c) :
    AlikeParts a c := by
  cases h with
  | refl => exact h'
  | zero s t =>
      cases h' with
      | refl => exact .zero s t
      | zero _ r => exact .zero s r

/-- An operation of which neither operand matters by the sign of a zero. -/
theorem AlikeParts.operation {a a' b b' : UnpackedFloat}
    {f : UnpackedFloat → UnpackedFloat → UnpackedFloat}
    (hleft : ∀ s t b, AlikeParts (f (.zero s) b) (f (.zero t) b))
    (hright : ∀ s t a, AlikeParts (f a (.zero s)) (f a (.zero t)))
    (ha : AlikeParts a' a) (hb : AlikeParts b' b) : AlikeParts (f a' b') (f a b) := by
  have hfirst : AlikeParts (f a' b') (f a b') := by
    cases ha with
    | refl => exact .refl _
    | zero s t => exact hleft s t b'
  refine hfirst.trans ?_
  cases hb with
  | refl => exact .refl _
  | zero s t => exact hright s t a

section

variable {v v' w w' : Float}

/-- Sums of numbers that are alike are alike. -/
theorem alike_add (hv : Alike v' v) (hw : Alike w' w) : Alike (v' + w') (v + w) := by
  refine alike_pack (.operation (fun s t b => ?_) (fun s t a => ?_) (alike_iff_parts.mp hv)
    (alike_iff_parts.mp hw))
  · cases b with
    | zero r => cases s <;> cases t <;> cases r <;> constructor
    | notANumber | infinity | finite => exact .refl _
  · cases a with
    | zero r => cases s <;> cases t <;> cases r <;> constructor
    | notANumber | infinity | finite => exact .refl _

/-- Differences of numbers that are alike are alike. -/
theorem alike_sub (hv : Alike v' v) (hw : Alike w' w) : Alike (v' - w') (v - w) := by
  refine alike_pack (.operation (fun s t b => ?_) (fun s t a => ?_) (alike_iff_parts.mp hv)
    (alike_iff_parts.mp hw))
  · cases b with
    | zero r => cases s <;> cases t <;> cases r <;> constructor
    | notANumber | infinity | finite => exact .refl _
  · cases a with
    | zero r => cases s <;> cases t <;> cases r <;> constructor
    | notANumber | infinity | finite => exact .refl _

/-- Products of numbers that are alike are alike. -/
theorem alike_mul (hv : Alike v' v) (hw : Alike w' w) : Alike (v' * w') (v * w) := by
  refine alike_pack (.operation (fun s t b => ?_) (fun s t a => ?_) (alike_iff_parts.mp hv)
    (alike_iff_parts.mp hw))
  · cases b <;> constructor
  · cases a <;> constructor

/-- Quotients of numbers that are alike are alike, where there are any. -/
theorem alike_div (hv : Alike v' v) (hw : Alike w' w) {x : Float} (h : div v w = .ok x) :
    ∃ x', div v' w' = .ok x' ∧ Alike x' x := by
  by_cases hzero : isZero w = true
  · have hdiv : div v w = .error .divisionByZero := if_pos hzero
    rw [hdiv] at h
    cases h
  · obtain rfl := hw.eq (Bool.eq_false_iff.mpr hzero)
    have hdiv (y : Float) : div y w' = .ok (y / w') := if_neg hzero
    obtain rfl := Except.ok.inj ((hdiv v).symm.trans h)
    refine ⟨v' / w', hdiv v', alike_pack ?_⟩
    change AlikeParts (UnpackedFloat.div _ (parts v') (parts w'))
      (UnpackedFloat.div _ (parts v) (parts w'))
    rcases hv with rfl | ⟨hv', hv⟩
    · exact .refl _
    · obtain ⟨s, hs⟩ := isZero_iff_parts.mp hv'
      obtain ⟨t, ht⟩ := isZero_iff_parts.mp hv
      rw [hs, ht]
      cases hp : parts w' with
      | zero r => exact absurd (isZero_iff_parts.mpr ⟨r, hp⟩) hzero
      | notANumber | infinity | finite => constructor

end

/-! ## powers -/

/-- What is documented of the machine's power function at zero. -/
structure PowerAtZero (power : Float → Float → Float) : Prop where
  zero_exponent {a b : Float} : b == 0 → power a b = 1
  zero_base {a b : Float} : a == 0 → 0 < b → power a b == 0
  zero_base_negative {a b : Float} : a == 0 → b < 0 → (power a b).isInf

/-- The values at zero, and squares; other powers are the machine's. -/
def squaring (a b : Float) : Float :=
  if b == 0 then 1
  else if a == 0 then if b < 0 then 1 / 0 else 0
  else if b == 2 then a * a
  else a.pow b

/-- Powers by a given function, with the faults of `pow`. -/
def powBy (power : Float → Float → Float) (a b : Float) : Except MathFault Float :=
  let r := power a b
  if a.isFinite && b.isFinite then
    if r.isNaN then .error .domain
    else if r.isInf then .error (if a == 0 then .domain else .range)
    else .ok r
  else .ok r

/-- Double precision numbers with powers by a given function. -/
def Powered (_ : Float → Float → Float) : Type := Float

variable {power : Float → Float → Float}

instance : Arith (Powered power) := { (inferInstance : Arith Float) with pow := powBy power }

instance : Numeral (Powered power) := inferInstanceAs (Numeral Float)

/-- The laws say nothing of powers. -/
instance : LawfulArith (Powered power) where
  proper_zero :=
    ⟨(LawfulArith.proper_zero (α := Float)).1, (LawfulArith.proper_zero (α := Float)).2⟩
  proper_one := ⟨(LawfulArith.proper_one (α := Float)).1, (LawfulArith.proper_one (α := Float)).2⟩
  proper_two := ⟨(LawfulArith.proper_two (α := Float)).1, (LawfulArith.proper_two (α := Float)).2⟩
  proper_of_nonneg h :=
    have hproper := LawfulArith.proper_of_nonneg (α := Float) h
    ⟨hproper.1, hproper.2⟩
  proper_neg hfinite h :=
    have hproper := LawfulArith.proper_neg (α := Float) hfinite h
    ⟨hproper.1, hproper.2⟩
  finite_add_zero h := LawfulArith.finite_add_zero (α := Float) h
  near_neg_zero v := LawfulArith.near_neg_zero (α := Float) v

/-- Adding zero changes no more than the sign of zero. -/
theorem alike_add_zero (v : Float) : Alike (v + 0) v := by
  rw [alike_iff_parts]
  rcases parts_add_zero v with h | ⟨s, h, h'⟩
  · rw [h]
    exact .refl _
  · rw [h, h']
    exact .zero _ _

/-- A finite number is below zero, zero, or above zero. -/
theorem sign_cases {v : Float} (hv : finite v = true) : v < 0 ∨ isZero v = true ∨ 0 < v := by
  rcases lt_trichotomy (value v) 0 with h | h | h
  · exact .inl (of_decide_eq_true ((negative_iff hv).mpr h))
  · exact .inr (.inl ((isZero_iff hv).mpr h))
  · exact .inr (.inr (decide_eq_true_iff.mpr ((value_pos_iff hv).mp h)))

theorem lt_iff_parts {v w : Float} : v < w ↔ (parts v).lt (parts w) = true := decide_eq_true_iff

/-- What is below or above zero is not zero. -/
theorem isZero_of_lt {b : Float} (h : b < 0 ∨ 0 < b) : isZero b = false := by
  rw [lt_iff_parts, lt_iff_parts, parts_zero] at h
  rw [Bool.eq_false_iff]
  intro hzero
  obtain ⟨s, hs⟩ := isZero_iff_parts.mp hzero
  rw [hs] at h
  rcases h with h | h <;> cases h

/-- What is above zero is not below it. -/
theorem not_lt_of_lt {b : Float} (h : 0 < b) : ¬b < 0 := by
  rw [lt_iff_parts, parts_zero] at h ⊢
  cases hp : parts b with
  | notANumber | zero =>
      rw [hp] at h
      cases h
  | infinity s | finite s =>
      rw [hp] at h
      cases s with
      | negative => cases h
      | positive => exact Bool.false_ne_true

/-- Squaring is a power that is one at the exponent zero. -/
theorem powerAtZero_squaring : PowerAtZero squaring where
  zero_exponent h := if_pos h
  zero_base {a b} ha hb := by
    have hb' : ¬(b == 0) = true := Bool.eq_false_iff.mp (isZero_of_lt (.inr hb))
    rw [squaring, if_neg hb', if_pos ha, if_neg (not_lt_of_lt hb)]
    rfl
  zero_base_negative {a b} ha hb := by
    have hb' : ¬(b == 0) = true := Bool.eq_false_iff.mp (isZero_of_lt (.inl hb))
    rw [squaring, if_neg hb', if_pos ha, if_pos hb]
    decide +kernel

/-- A finite power is the result. -/
theorem powBy_of_finite {a b : Float} (h : finite (power a b) = true) :
    powBy power a b = .ok (power a b) := by
  obtain ⟨hnan, hinf⟩ := not_isNaN_of_finite h
  simp only [powBy, hnan, hinf]
  split <;> rfl

/-- A result is that of the power. -/
theorem eq_power_of_powBy {a b x : Float} (h : powBy power a b = .ok x) : x = power a b := by
  unfold powBy at h
  grind

/-- Zero has no power of a negative exponent. -/
theorem powBy_ne_ok (hpower : PowerAtZero power) {v w x : Float} (hv : isZero v = true)
    (hw : finite w = true) (hneg : w < 0) : powBy power v w ≠ .ok x := by
  have hinf := hpower.zero_base_negative hv hneg
  have hfinite : (v.isFinite && w.isFinite) = true := by
    rw [Bool.and_eq_true]
    exact ⟨finite_of_isZero hv, hw⟩
  simp only [powBy, hfinite, hinf, if_true]
  split <;> simp

/-- Powers are alike where they are finite. -/
theorem alike_powBy (hpower : PowerAtZero power) {v v' w w' x : Float} (hfw : finite w = true)
    (hv : Alike v' v) (hw : Alike w' w) (h : powBy power v w = .ok x) :
    ∃ x', powBy power v' w' = .ok x' ∧ Alike x' x := by
  obtain rfl := eq_power_of_powBy h
  by_cases hzero : isZero w = true
  · have hone : power v w = 1 := hpower.zero_exponent hzero
    have hone' : power v' w' = 1 := hpower.zero_exponent (hw.isZero_eq.trans hzero)
    refine ⟨power v' w', powBy_of_finite ?_, .inl (hone'.trans hone.symm)⟩
    rw [hone']
    rfl
  · obtain rfl := hw.eq (Bool.eq_false_iff.mpr hzero)
    rcases hv with rfl | ⟨hv', hv⟩
    · exact ⟨_, h, .refl _⟩
    · rcases sign_cases hfw with hneg | hzero' | hpos
      · exact absurd h (powBy_ne_ok hpower hv hfw hneg)
      · exact absurd hzero' hzero
      · have hbase' : isZero (power v' w') = true := hpower.zero_base hv' hpos
        exact ⟨_, powBy_of_finite (finite_of_isZero hbase'),
          .inr ⟨hbase', hpower.zero_base hv hpos⟩⟩

/-- Of double precision numbers zero may have a sign that makes no other difference. -/
theorem signedZero (hpower : PowerAtZero power) : SignedZero (Powered power) where
  nonneg_of_isZero h := nonneg_of_isZero h
  finite_of_isZero h := finite_of_isZero h
  near_of_isZero h := near_of_isZero h
  isZero_neg h := isZero_neg h
  neg_neg v := neg_neg_eq v
  alike_add_zero v := alike_add_zero v
  compute_alike {op v v' w w' x} hfw hv hw h := by
    cases op with
    | add => exact ⟨_, rfl, Except.ok.inj h ▸ alike_add hv hw⟩
    | sub => exact ⟨_, rfl, Except.ok.inj h ▸ alike_sub hv hw⟩
    | mul => exact ⟨_, rfl, Except.ok.inj h ▸ alike_mul hv hw⟩
    | div => exact alike_div hv hw h
    | pow => exact alike_powBy hpower hfw hv hw h
  pow_ne_ok hv hw hneg := powBy_ne_ok hpower hv hw (of_decide_eq_true (p := (_ : Float) < 0) hneg)

end Binary64

end Fluxion
