/-
  Multiplication in place, with the overflow bits added back.

  A number of `L` bits is multiplied by `m`.  When `m` is odd this permutes the
  numbers of `L` bits; when `m = 2 ^ v * u` with `u` odd, the top `v` bits of
  the product by `u` are shifted out.  They are the low bits of the overflow,
  and adding these back turns the shift into a rotation (`mulReadd_eq_rotl`),
  so that nothing is lost for any multiplier (`bijOn_mulReadd`).
-/
import Mathlib

namespace MulRotate

/-- Multiplication in `L` bits, with the low `v` bits of the overflow added. -/
def mulReadd (L v m x : ℕ) : ℕ := x * m % 2 ^ L + x * m / 2 ^ L % 2 ^ v

/-- Rotation of `L` bits to the left by `v`. -/
def rotl (L v x : ℕ) : ℕ := 2 ^ v * (x % 2 ^ (L - v)) + x / 2 ^ (L - v)

/-- The trailing zero bits of a number, and its odd part. -/
theorem exists_odd_part {m : ℕ} (h : 0 < m) : ∃ u, Odd u ∧ m = 2 ^ padicValNat 2 m * u := by
  obtain ⟨k, u, hu, he⟩ := Nat.exists_eq_two_pow_mul_odd h.ne'
  have hv : padicValNat 2 m = k := by
    have hu0 : u ≠ 0 := by rintro rfl; simp at hu
    rw [he, padicValNat.mul (by positivity) hu0, padicValNat.prime_pow,
      padicValNat.eq_zero_of_not_dvd (fun hd => by
        rw [Nat.odd_iff] at hu
        omega), Nat.add_zero]
  exact ⟨u, hu, by rw [hv]; exact he⟩

theorem pow_padicValNat_le {m : ℕ} (h : 0 < m) : 2 ^ padicValNat 2 m ≤ m :=
  Nat.le_of_dvd h pow_padicValNat_dvd

/-- Multiplication by an odd number is injective modulo a power of two. -/
theorem injOn_mul_mod {L u : ℕ} (hu : Odd u) :
    Set.InjOn (fun x => x * u % 2 ^ L) (Set.Iio (2 ^ L)) := by
  intro x hx y hy h
  have hcop : Nat.gcd (2 ^ L) u = 1 := (Nat.coprime_two_left.2 hu).pow_left L
  have hmod : x ≡ y [MOD 2 ^ L] := Nat.ModEq.cancel_right_of_coprime hcop h
  exact Nat.ModEq.eq_of_lt_of_lt hmod hx hy

theorem rotl_lt {L v x : ℕ} (hv : v ≤ L) (hx : x < 2 ^ L) : rotl L v x < 2 ^ L := by
  have hL : 2 ^ L = 2 ^ v * 2 ^ (L - v) := by rw [← pow_add]; congr 1; omega
  have hlo : x % 2 ^ (L - v) + 1 ≤ 2 ^ (L - v) := Nat.mod_lt _ (by positivity)
  have hhi : x / 2 ^ (L - v) < 2 ^ v := Nat.div_lt_of_lt_mul (by rw [Nat.mul_comm, ← hL]; exact hx)
  calc rotl L v x < 2 ^ v * (x % 2 ^ (L - v)) + 2 ^ v := by unfold rotl; omega
    _ = 2 ^ v * (x % 2 ^ (L - v) + 1) := by ring
    _ ≤ 2 ^ v * 2 ^ (L - v) := Nat.mul_le_mul_left _ hlo
    _ = 2 ^ L := hL.symm

/-- A rotation can be turned back. -/
theorem injOn_rotl {L v : ℕ} (hv : v ≤ L) : Set.InjOn (rotl L v) (Set.Iio (2 ^ L)) := by
  have hL : 2 ^ L = 2 ^ v * 2 ^ (L - v) := by rw [← pow_add]; congr 1; omega
  have hhi : ∀ x ∈ Set.Iio (2 ^ L), x / 2 ^ (L - v) < 2 ^ v := fun x hx =>
    Nat.div_lt_of_lt_mul (by rw [Nat.mul_comm, ← hL]; exact hx)
  have hpos : 0 < 2 ^ v := by positivity
  intro x hx y hy h
  unfold rotl at h
  have hquot : x / 2 ^ (L - v) = y / 2 ^ (L - v) := by
    have := congrArg (· % 2 ^ v) h
    simpa only [Nat.mul_add_mod, Nat.mod_eq_of_lt (hhi x hx), Nat.mod_eq_of_lt (hhi y hy)] using this
  have hrem : x % 2 ^ (L - v) = y % 2 ^ (L - v) := by
    rw [hquot] at h
    exact Nat.eq_of_mul_eq_mul_left hpos (Nat.add_right_cancel h)
  rw [← Nat.div_add_mod x (2 ^ (L - v)), ← Nat.div_add_mod y (2 ^ (L - v)), hquot, hrem]

/-- **Adding the overflow back** makes a multiplication by `2 ^ v * u` the
    multiplication by `u`, rotated by `v`. -/
theorem mulReadd_eq_rotl {L v : ℕ} (hv : v ≤ L) (u x : ℕ) :
    mulReadd L v (2 ^ v * u) x = rotl L v (x * u % 2 ^ L) := by
  have hL : 2 ^ L = 2 ^ v * 2 ^ (L - v) := by rw [← pow_add]; congr 1; omega
  have hprod : x * (2 ^ v * u) = 2 ^ v * (x * u) := by ring
  have hlow : x * (2 ^ v * u) % 2 ^ L = 2 ^ v * (x * u % 2 ^ L % 2 ^ (L - v)) := by
    rw [hprod, hL, Nat.mul_mod_mul_left, Nat.mod_mul_left_mod]
  have hhigh : x * (2 ^ v * u) / 2 ^ L % 2 ^ v = x * u % 2 ^ L / 2 ^ (L - v) := by
    rw [hprod, hL, Nat.mul_div_mul_left _ _ (by positivity), Nat.mul_comm (2 ^ v),
      Nat.mod_mul_right_div_self]
  rw [mulReadd, rotl, hlow, hhigh]

theorem mulReadd_lt {L v u x : ℕ} (hv : v ≤ L) : mulReadd L v (2 ^ v * u) x < 2 ^ L := by
  rw [mulReadd_eq_rotl hv]
  exact rotl_lt hv (Nat.mod_lt _ (by positivity))

/-- **Nothing is lost**: the multiplication with the overflow added back
    permutes the numbers of `L` bits. -/
theorem bijOn_mulReadd {L m : ℕ} (h : 0 < m) (hm : m ≤ 2 ^ L) :
    Set.BijOn (mulReadd L (padicValNat 2 m) m) (Set.Iio (2 ^ L)) (Set.Iio (2 ^ L)) := by
  obtain ⟨u, hu, he⟩ := exists_odd_part h
  have hv : padicValNat 2 m ≤ L :=
    (Nat.pow_le_pow_iff_right (by norm_num)).1 ((pow_padicValNat_le h).trans hm)
  generalize padicValNat 2 m = v at he hv
  subst he
  have hmaps : Set.MapsTo (mulReadd L v (2 ^ v * u)) (Set.Iio (2 ^ L)) (Set.Iio (2 ^ L)) :=
    fun x _ => mulReadd_lt hv
  have hinj : Set.InjOn (mulReadd L v (2 ^ v * u)) (Set.Iio (2 ^ L)) := by
    intro x hx y hy hxy
    rw [mulReadd_eq_rotl hv, mulReadd_eq_rotl hv] at hxy
    exact injOn_mul_mod hu hx hy (injOn_rotl hv (Nat.mod_lt _ (by positivity))
      (Nat.mod_lt _ (by positivity)) hxy)
  exact ((Set.finite_Iio _).injOn_iff_bijOn_of_mapsTo hmaps).1 hinj

/-- The same for an odd multiplier, where no bit overflows. -/
theorem bijOn_mul_mod {L u : ℕ} (hu : Odd u) :
    Set.BijOn (fun x => x * u % 2 ^ L) (Set.Iio (2 ^ L)) (Set.Iio (2 ^ L)) := by
  have hmaps : Set.MapsTo (fun x => x * u % 2 ^ L) (Set.Iio (2 ^ L)) (Set.Iio (2 ^ L)) :=
    fun x _ => Nat.mod_lt _ (by positivity)
  exact ((Set.finite_Iio _).injOn_iff_bijOn_of_mapsTo hmaps).1 (injOn_mul_mod hu)

end MulRotate
