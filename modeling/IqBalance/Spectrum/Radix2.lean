import IqBalance.Sample
import IqBalance.Spectrum.BitReversal

/-!
The centred transform of `2 ^ m` samples, in place: bit reversal, then `m`
stages of butterflies whose half-spans double, then an exchange of the two
halves. Index 0 of the result is the negative edge of the band and index
`2 ^ m / 2` is the centre.
-/

namespace IqBalance.Spectrum

variable {α : Type} [Scalar α] {m : Nat}

/-- The position of twiddle `k` for half-span `2 ^ s` in a table of the finest twiddles. -/
theorem twiddle_index_lt {s k : Nat} (hs : s < m) (hk : k < 2 ^ s) :
    k * 2 ^ (m - s - 1) < 2 ^ (m - 1) := by
  have hsplit : 2 ^ (m - 1) = 2 ^ s * 2 ^ (m - s - 1) := by
    rw [← Nat.pow_add]
    congr 1
    omega
  rw [hsplit]
  exact Nat.mul_lt_mul_of_pos_right hk (Nat.two_pow_pos _)

/-- The lower end of a butterfly stays inside the vector. -/
theorem bottom_lt {s b k : Nat} (hs : s < m) (hb : b < 2 ^ (m - s - 1)) (hk : k < 2 ^ s) :
    b * 2 ^ (s + 1) + k + 2 ^ s < 2 ^ m := by
  have hsplit : 2 ^ m = 2 ^ (m - s - 1) * 2 ^ (s + 1) := by
    rw [← Nat.pow_add]
    congr 1
    omega
  have hblock : (b + 1) * 2 ^ (s + 1) ≤ 2 ^ (m - s - 1) * 2 ^ (s + 1) :=
    Nat.mul_le_mul_right _ hb
  rw [Nat.add_mul, Nat.one_mul] at hblock
  have hspan : 2 ^ (s + 1) = 2 ^ s + 2 ^ s := by rw [Nat.pow_succ, Nat.mul_two]
  omega

/-- One butterfly: with `t` the twiddled lower entry, the upper entry gains `t` and the lower one
becomes the upper one less `t`. -/
@[specialize] def butterfly {n : Nat} (w : Sample α) (top bottom : Nat) (htop : top < n)
    (hbottom : bottom < n) (v : Vector (Sample α) n) : Vector (Sample α) n :=
  let t := w * v[bottom]
  let u := v[top]
  (v.set bottom (u - t)).set top (u + t)

/-- All butterflies of half-span `2 ^ s`. -/
@[specialize] def stage (twiddles : Vector (Sample α) (2 ^ (m - 1))) (s : Nat) (hs : s < m)
    (v : Vector (Sample α) (2 ^ m)) : Vector (Sample α) (2 ^ m) :=
  Nat.fold (2 ^ (m - s - 1)) (fun b hb v =>
    Nat.fold (2 ^ s) (fun k hk v =>
      butterfly (twiddles.get ⟨k * 2 ^ (m - s - 1), twiddle_index_lt hs hk⟩)
        (b * 2 ^ (s + 1) + k) (b * 2 ^ (s + 1) + k + 2 ^ s)
        (by have := bottom_lt hs hb hk; omega) (bottom_lt hs hb hk) v) v) v

/-- All stages, from half-span 1 to half the length. -/
@[specialize] def butterflies (twiddles : Vector (Sample α) (2 ^ (m - 1)))
    (v : Vector (Sample α) (2 ^ m)) : Vector (Sample α) (2 ^ m) :=
  Nat.fold m (fun s hs v => stage twiddles s hs v) v

/-- Exchange the two halves. -/
def swapHalves {β : Type} {n : Nat} (v : Vector β n) : Vector β n :=
  Vector.ofFn fun k =>
    v.get ⟨(k.val + n / 2) % n, Nat.mod_lt _ (Nat.lt_of_le_of_lt (Nat.zero_le _) k.isLt)⟩

/-- The centred transform. -/
@[specialize] def transform (twiddles : Vector (Sample α) (2 ^ (m - 1)))
    (v : Vector (Sample α) (2 ^ m)) : Vector (Sample α) (2 ^ m) :=
  swapHalves (butterflies twiddles (bitReverse v))

end IqBalance.Spectrum
