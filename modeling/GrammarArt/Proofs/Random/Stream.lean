import GrammarArt.Proofs.Random.Word

/-! # Streams of random words

A step of the generator can be undone, and `previous` does it.  So two generators that are in
different states are in different states after equally many words, however many, and the state
in which no bit is set is reached from itself alone.

Seeds are told apart at once.  The state that a seed is spread over contains the first output
of splitmix64 as a whole, and splitmix64 loses nothing of its own state
(`splitmixOutput_bijective`).  It gives zero in the state zero only, and no seed is so large
that the first step would lead there (`splitmixState_ne_zero`).  So the state that is kept for
a seed that is spread over nothing but zeros is never used (`seed_eq_expand`), and the streams
of two seeds never meet (`streams_never_meet`).

What is drawn tells as much as the state: four words in a row determine the state that they are
drawn in (`eq_of_nextWords_eq`).  So the words of two seeds differ again and again, and zeros
never come four at a time (`nextWords_seed_ne`).
-/
namespace GrammarArt.Xoshiro

/-! ### A step back -/

/-- The state before the one given. -/
def previous (r : Xoshiro) : Xoshiro :=
  let s3 := rotateLeft r.s3 21
  let s0 := r.s0 ^^^ s3
  let s1 := (addMovedUp 9)^[3] (r.s1 ^^^ r.s2)
  ⟨s0, s1, (r.s1 ^^^ s1) ^^^ s0, s3 ^^^ s1⟩

theorem previous_step (r : Xoshiro) : previous (step r) = r := by
  have hs3 : rotateLeft (step r).s3 21 = r.s3 ^^^ r.s1 :=
    rotateLeft_rotateLeft (k := 11) (by decide) (by decide) _
  have hs0 : (step r).s0 ^^^ (r.s3 ^^^ r.s1) = r.s0 := xor_xor_cancel_right _ _
  -- What the step adds to the second word is added to the third as well, and drops out.
  have hs1 : (addMovedUp 9)^[3] ((step r).s1 ^^^ (step r).s2) = r.s1 := by
    have hsum : (step r).s1 ^^^ (step r).s2 = addMovedUp 9 r.s1 := by
      change (r.s1 ^^^ (r.s2 ^^^ r.s0)) ^^^ ((r.s2 ^^^ r.s0) ^^^ (r.s1 <<< 9)) = _
      rw [← UInt32.xor_assoc, xor_xor_cancel_right, addMovedUp]
    rw [hsum]
    exact addMovedUp_four_times (by decide) (by decide) _
  have hs2 : ((step r).s1 ^^^ r.s1) ^^^ r.s0 = r.s2 := by
    have hadded : (step r).s1 ^^^ r.s1 = r.s2 ^^^ r.s0 := by
      rw [UInt32.xor_comm]
      exact xor_xor_cancel_left _ _
    rw [hadded, xor_xor_cancel_right]
  simp only [previous, hs3, hs0, hs1, hs2, xor_xor_cancel_right]

theorem step_previous (r : Xoshiro) : step (previous r) = r := by
  have hs3 : (previous r).s3 ^^^ (previous r).s1 = rotateLeft r.s3 21 :=
    xor_xor_cancel_right _ _
  have hs2 : (previous r).s2 ^^^ (previous r).s0 = r.s1 ^^^ (previous r).s1 :=
    xor_xor_cancel_right _ _
  have hmoved : (previous r).s1 ^^^ ((previous r).s1 <<< 9) = r.s1 ^^^ r.s2 :=
    addMovedUp_four_times (k := 9) (by decide) (by decide) _
  have hrotated : rotateLeft (rotateLeft r.s3 21) 11 = r.s3 :=
    rotateLeft_rotateLeft (k := 21) (by decide) (by decide) _
  have hs0 : (previous r).s0 ^^^ rotateLeft r.s3 21 = r.s0 := xor_xor_cancel_right _ _
  have hs1 : (previous r).s1 ^^^ (r.s1 ^^^ (previous r).s1) = r.s1 := by
    rw [UInt32.xor_comm, xor_xor_cancel_right]
  have hs2' : (r.s1 ^^^ (previous r).s1) ^^^ ((previous r).s1 <<< 9) = r.s2 := by
    rw [UInt32.xor_assoc, hmoved, xor_xor_cancel_left]
  rw [step, hs3, hs2, hs0, hs1, hs2', hrotated]

/-- **A step of the generator loses nothing, and every state is reached by one.** -/
theorem step_bijective : Function.Bijective step :=
  Function.bijective_iff_has_inverse.mpr ⟨previous, previous_step, step_previous⟩

theorem step_zero : step zero = zero := by decide

/-! ### Seeds -/

theorem splitmixState_injective : Function.Injective splitmixState :=
  fun _ _ h => (UInt64.add_left_inj _).mp h

/-- A seed leaves more to the end of the words than a step of splitmix64 can pass. -/
theorem splitmixState_ne_zero (s : UInt32) : splitmixState s.toUInt64 ≠ 0 := by
  intro h
  have hsum := congrArg UInt64.toNat h
  have hseed := s.toNat_lt
  rw [splitmixState, UInt64.toNat_add, UInt32.toNat_toUInt64] at hsum
  change (s.toNat + 0x9E3779B97F4A7C15) % 2 ^ 64 = 0 at hsum
  omega

/-- **splitmix64 loses nothing of its state**, and gives every word in some state. -/
theorem splitmixOutput_bijective : Function.Bijective splitmixOutput := by
  have hfirst : Function.Bijective (· * (0xBF58476D1CE4E5B9 : UInt64)) :=
    mul_bijective 0x96DE1B173F119089 (by decide)
  have hsecond : Function.Bijective (· * (0x94D049BB133111EB : UInt64)) :=
    mul_bijective 0x319642B2D24D8EC3 (by decide)
  have h30 : Function.Bijective (addMovedDown 30) :=
    addMovedDown_bijective (by decide) (by decide)
  have h27 : Function.Bijective (addMovedDown 27) :=
    addMovedDown_bijective (by decide) (by decide)
  have h31 : Function.Bijective (addMovedDown 31) :=
    addMovedDown_bijective (by decide) (by decide)
  exact h31.comp (hsecond.comp (h27.comp (hfirst.comp h30)))

theorem splitmixOutput_zero : splitmixOutput 0 = 0 := by decide

/-- A word is known by its two halves. -/
theorem eq_of_halves_eq {x y : UInt64} (hlow : x.toUInt32 = y.toUInt32)
    (hhigh : (x >>> 32).toUInt32 = (y >>> 32).toUInt32) : x = y := by
  have hlow := congrArg UInt32.toNat hlow
  have hhigh := congrArg UInt32.toNat hhigh
  have hx := x.toNat_lt
  have hy := y.toNat_lt
  rw [UInt64.toNat_toUInt32, UInt64.toNat_toUInt32] at hlow
  simp only [UInt64.toNat_toUInt32, UInt64.toNat_shiftRight, Nat.shiftRight_eq_div_pow] at hhigh
  change x.toNat / 2 ^ 32 % 2 ^ 32 = y.toNat / 2 ^ 32 % 2 ^ 32 at hhigh
  apply UInt64.toNat_inj.mp
  omega

theorem expand_injective : Function.Injective expand := by
  intro s s' h
  have houtput : splitmixOutput (splitmixState s.toUInt64) =
      splitmixOutput (splitmixState s'.toUInt64) :=
    eq_of_halves_eq (congrArg Xoshiro.s0 h) (congrArg Xoshiro.s1 h)
  have hstate := splitmixState_injective (splitmixOutput_bijective.1 houtput)
  exact UInt32.toUInt64_inj.mp hstate

theorem expand_ne_zero (s : UInt32) : expand s ≠ zero := by
  intro h
  have houtput : splitmixOutput (splitmixState s.toUInt64) = 0 :=
    eq_of_halves_eq (congrArg Xoshiro.s0 h) (congrArg Xoshiro.s1 h)
  rw [← splitmixOutput_zero] at houtput
  exact splitmixState_ne_zero s (splitmixOutput_bijective.1 houtput)

/-- **No seed needs the state that is kept for zero.** -/
theorem seed_eq_expand (s : UInt32) : seed s = expand s := if_neg (expand_ne_zero s)

theorem seed_injective : Function.Injective seed := by
  simpa only [funext seed_eq_expand] using expand_injective

theorem seed_ne_zero (s : UInt32) : seed s ≠ zero := by
  rw [seed_eq_expand]
  exact expand_ne_zero s

/-! ### Streams -/

/-- The next `n` words in their order, and the generator after them. -/
def nextWords : Nat → Xoshiro → List UInt32 × Xoshiro
  | 0, r => ([], r)
  | n + 1, r =>
    let (word, r) := r.nextWord
    let (words, r) := nextWords n r
    (word :: words, r)

theorem nextWords_snd (n : Nat) (r : Xoshiro) : (nextWords n r).2 = step^[n] r := by
  induction n generalizing r with
  | zero => rfl
  | succ n ih => exact ih r.step

/-- **Different states lead to different states**, after any number of words. -/
theorem nextWords_injective (n : Nat) : Function.Injective fun r => (nextWords n r).2 := by
  simp only [nextWords_snd]
  exact step_bijective.injective.iterate n

theorem nextWords_zero_snd (n : Nat) : (nextWords n zero).2 = zero := by
  rw [nextWords_snd]
  exact Function.iterate_fixed step_zero n

/-- The state in which no bit is set is reached from itself alone. -/
theorem nextWords_eq_zero_iff {n : Nat} {r : Xoshiro} : (nextWords n r).2 = zero ↔ r = zero := by
  constructor
  · intro h
    exact nextWords_injective n (h.trans (nextWords_zero_snd n).symm)
  · rintro rfl
    exact nextWords_zero_snd n

/-- **The streams of two seeds never meet, and none comes to a standstill.** A step of the
generator permutes its states and leads to the state without a bit from itself alone.  A seed
is spread over a state that belongs to no other seed and has some bit set, and this is the
state that its stream starts in. -/
theorem streams_never_meet :
    Function.Bijective (fun r : Xoshiro => r.nextWord.2) ∧
    (∀ r : Xoshiro, r.nextWord.2 = zero ↔ r = zero) ∧
    Function.Injective expand ∧
    (∀ s : UInt32, expand s ≠ zero ∧ seed s = expand s) ∧
    ∀ a b : UInt32, a ≠ b → ∀ n : Nat,
      (nextWords n (seed a)).2 ≠ (nextWords n (seed b)).2 ∧
      (nextWords n (seed a)).2 ≠ zero ∧ (nextWords n (seed b)).2 ≠ zero := by
  have hrun (s : UInt32) (n : Nat) : (nextWords n (seed s)).2 ≠ zero :=
    fun h => seed_ne_zero s (nextWords_eq_zero_iff.mp h)
  refine ⟨step_bijective, fun r => nextWords_eq_zero_iff (n := 1), expand_injective,
    fun s => ⟨expand_ne_zero s, seed_eq_expand s⟩, ?_⟩
  intro a b hne n
  exact ⟨(nextWords_injective n).ne (seed_injective.ne hne), hrun a n, hrun b n⟩

/-- The streams of the seeds 1 and 2 are apart after eight words. -/
theorem streams_never_meet_one_two :
    (1 : UInt32) ≠ 2 ∧ (nextWords 8 (seed 1)).2 ≠ (nextWords 8 (seed 2)).2 ∧
      (nextWords 8 (seed 1)).2 ≠ zero ∧ (nextWords 8 (seed 2)).2 ≠ zero :=
  have hne : (1 : UInt32) ≠ 2 := by decide
  ⟨hne, streams_never_meet.2.2.2.2 1 2 hne 8⟩

/-! ### What the words tell -/

section Words

variable {r r' : Xoshiro}

theorem output_eq_iff : r.output = r'.output ↔ r.s1 = r'.s1 := by
  constructor
  · intro h
    have hfive : Function.Bijective (· * (5 : UInt32)) := mul_bijective 0xCCCCCCCD (by decide)
    have hnine : Function.Bijective (· * (9 : UInt32)) := mul_bijective 0x38E38E39 (by decide)
    have hrotated : rotateLeft (r.s1 * 5) 7 = rotateLeft (r'.s1 * 5) 7 := hnine.injective h
    have hproduct : r.s1 * 5 = r'.s1 * 5 := by
      rw [← rotateLeft_rotateLeft (k := 7) (by decide) (by decide) (r.s1 * 5), hrotated]
      exact rotateLeft_rotateLeft (k := 7) (by decide) (by decide) _
    exact hfive.injective hproduct
  · intro h
    rw [output, output, h]

/-- Two values of the second word tell what a step adds to it; the third is made of the same. -/
theorem step_s2_eq (hs1 : r.s1 = r'.s1) (hstep : r.step.s1 = r'.step.s1) :
    r.step.s2 = r'.step.s2 := by
  have hadded : r.s1 ^^^ (r.s2 ^^^ r.s0) = r'.s1 ^^^ (r'.s2 ^^^ r'.s0) := hstep
  rw [hs1, UInt32.xor_right_inj] at hadded
  change (r.s2 ^^^ r.s0) ^^^ (r.s1 <<< 9) = (r'.s2 ^^^ r'.s0) ^^^ (r'.s1 <<< 9)
  rw [hadded, hs1]

theorem s0_eq (hs1 : r.s1 = r'.s1) (hs2 : r.s2 = r'.s2) (hstep : r.step.s1 = r'.step.s1) :
    r.s0 = r'.s0 := by
  have hadded : r.s1 ^^^ (r.s2 ^^^ r.s0) = r'.s1 ^^^ (r'.s2 ^^^ r'.s0) := hstep
  rwa [hs1, hs2, UInt32.xor_right_inj, UInt32.xor_right_inj] at hadded

theorem s3_eq (hs0 : r.s0 = r'.s0) (hs1 : r.s1 = r'.s1) (hstep : r.step.s0 = r'.step.s0) :
    r.s3 = r'.s3 := by
  have hadded : r.s0 ^^^ (r.s3 ^^^ r.s1) = r'.s0 ^^^ (r'.s3 ^^^ r'.s1) := hstep
  rwa [hs0, hs1, UInt32.xor_right_inj, UInt32.xor_left_inj] at hadded

/-- **Four words in a row determine the state that they are drawn in.** -/
theorem eq_of_nextWords_eq {n : Nat} (hn : 4 ≤ n)
    (h : (nextWords n r).1 = (nextWords n r').1) : r = r' := by
  obtain ⟨m, rfl⟩ := Nat.exists_eq_add_of_le' hn
  simp only [nextWords, nextWord, List.cons.injEq, output_eq_iff] at h
  obtain ⟨h0, h1, h2, h3, -⟩ := h
  -- What becomes known is the state after one step.  The words up to the next tell its third
  -- part, one more its first, and the last tells the first part a step later, thus the fourth.
  have hs2 : r.step.s2 = r'.step.s2 := step_s2_eq h0 h1
  have hs0 : r.step.s0 = r'.step.s0 := s0_eq h1 hs2 h2
  have hs3 : r.step.s3 = r'.step.s3 := s3_eq hs0 h1 (s0_eq h2 (step_s2_eq h1 h2) h3)
  have hstep : r.step = r'.step := by
    calc
      r.step = ⟨r.step.s0, r.step.s1, r.step.s2, r.step.s3⟩ := rfl
      _ = ⟨r'.step.s0, r'.step.s1, r'.step.s2, r'.step.s3⟩ := by rw [hs0, h1, hs2, hs3]
      _ = r'.step := rfl
  exact step_bijective.injective hstep

theorem nextWords_zero_fst (n : Nat) : (nextWords n zero).1 = List.replicate n 0 := by
  induction n with
  | zero => rfl
  | succ n ih =>
    have hword : zero.output = 0 := by decide
    have hwords : (nextWords n zero.step).1 = List.replicate n 0 := by rw [step_zero, ih]
    exact congrArg₂ List.cons hword hwords

/-- **Of any four words in a row**, drawn by two seeds after equally many others, **one tells
the seeds apart**, and one is not zero. -/
theorem nextWords_seed_ne {a b : UInt32} (hne : a ≠ b) (n : Nat) {k : Nat} (hk : 4 ≤ k) :
    (nextWords k (nextWords n (seed a)).2).1 ≠ (nextWords k (nextWords n (seed b)).2).1 ∧
      (nextWords k (nextWords n (seed a)).2).1 ≠ List.replicate k 0 := by
  constructor
  · intro h
    exact hne (seed_injective (nextWords_injective n (eq_of_nextWords_eq hk h)))
  · intro h
    rw [← nextWords_zero_fst] at h
    exact seed_ne_zero a (nextWords_eq_zero_iff.mp (eq_of_nextWords_eq hk h))

end Words

end GrammarArt.Xoshiro
