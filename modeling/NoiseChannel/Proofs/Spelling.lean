import Mathlib.Algebra.Group.Nat.Defs
import Mathlib.Tactic.ByContra
import NoiseChannel.Wire.Format

/-!
# Spelled numbers

The byte strings that are read as a number, and the number that each of them spells. `Varint.scan`
reads exactly those, whatever follows them (`scan_spelled`, `exists_spelled_of_scan`), so no spelling
is the beginning of another one. The spelling that is written is the shortest of all.
-/

namespace NoiseChannel.Varint

/-- The bytes spell a number whose first byte stands at a given place: at least one byte and none
behind the last place, the high bit set on all but the last. At the last place there is room for one
bit. -/
structure Spelled (place : Nat) (bs : Bytes) : Prop where
  length_pos : 0 < bs.length
  length_le : place + bs.length ≤ maxLength
  continued : ∀ b ∈ bs.dropLast, 128 ≤ b
  ended : ∀ b ∈ bs.getLast?, b < 128
  last_le : place + bs.length = maxLength → ∀ b ∈ bs.getLast?, b ≤ 1

/-- The number that is spelled, the high bits left out. -/
def value : Bytes → Nat
  | [] => 0
  | b :: bs => b.toNat % 128 + 128 * value bs

section Spelled

variable {place : Nat} {b : UInt8} {bs : Bytes}

theorem spelled_singleton :
    Spelled place [b] ↔ place < maxLength ∧ b < 128 ∧ (place + 1 = maxLength → b ≤ 1) := by
  constructor
  · intro h
    exact ⟨h.length_le, h.ended b rfl, fun hlast => h.last_le hlast b rfl⟩
  · rintro ⟨hplace, hend, hlast⟩
    refine ⟨Nat.one_pos, hplace, by simp, ?_, ?_⟩
    · rintro _ ⟨⟩
      exact hend
    · rintro h _ ⟨⟩
      exact hlast h

theorem spelled_cons (hbs : bs ≠ []) :
    Spelled place (b :: bs) ↔ 128 ≤ b ∧ Spelled (place + 1) bs := by
  have hpos := List.length_pos_iff.mpr hbs
  have hlen : place + (b :: bs).length = place + 1 + bs.length := by
    rw [List.length_cons]
    omega
  have hlast : (b :: bs).getLast? = bs.getLast? := by
    rw [List.getLast?_cons, List.getLast?_eq_some_getLast hbs]
    rfl
  have hfront : (b :: bs).dropLast = b :: bs.dropLast := List.dropLast_cons_of_ne_nil hbs
  constructor
  · rintro ⟨-, hle, hcontinued, hended, hlastle⟩
    rw [hlen] at hle hlastle
    rw [hlast] at hended hlastle
    rw [hfront] at hcontinued
    exact ⟨hcontinued b List.mem_cons_self, hpos, hle,
      fun c hc => hcontinued c (List.mem_cons_of_mem b hc), hended, hlastle⟩
  · rintro ⟨hb, hrest⟩
    refine ⟨Nat.succ_pos _, ?_, ?_, ?_, ?_⟩
    · rw [hlen]
      exact hrest.length_le
    · rw [hfront]
      intro c hc
      rcases List.mem_cons.mp hc with rfl | hc
      · exact hb
      · exact hrest.continued c hc
    · rw [hlast]
      exact hrest.ended
    · rw [hlen, hlast]
      exact hrest.last_le

/-! ## Reading -/

/-- A spelled number is read, whatever follows it. -/
theorem scan_spelled (h : Spelled place bs) (rest : Bytes) :
    scan place (bs ++ rest) = (some (value bs), bs.length) := by
  induction bs generalizing place with
  | nil => exact absurd h.length_pos (Nat.lt_irrefl 0)
  | cons b bs ih =>
    by_cases hbs : bs = []
    · subst hbs
      obtain ⟨hplace, hend, hlast⟩ := spelled_singleton.mp h
      have hfits : ¬ (place = maxLength - 1 && 1 < b) = true := by
        simp only [Bool.and_eq_true, decide_eq_true_eq]
        rintro ⟨hp, hone⟩
        have hle := hlast (by omega)
        exact absurd hone (UInt8.not_lt.mpr hle)
      have hnat : b.toNat < 128 := UInt8.lt_iff_toNat_lt.mp hend
      rw [List.singleton_append, scan, if_neg hfits, if_pos hend, value, value]
      simp only [Nat.mul_zero, Nat.add_zero, Nat.mod_eq_of_lt hnat, List.length_singleton]
    · obtain ⟨hb, hrest⟩ := (spelled_cons hbs).mp h
      have hplace := hrest.length_le
      have hpos := hrest.length_pos
      have hfits : ¬ (place = maxLength - 1 && 1 < b) = true := by
        simp only [Bool.and_eq_true, decide_eq_true_eq]
        rintro ⟨hp, -⟩
        omega
      rw [List.cons_append, scan, if_neg hfits, if_neg (UInt8.not_lt.mpr hb), ih hrest]
      rfl

/-- What is read as a number begins with a spelled one. -/
theorem exists_spelled_of_scan {n used : Nat} (hplace : place < maxLength)
    (h : scan place bs = (some n, used)) : ∃ a rest, bs = a ++ rest ∧ Spelled place a := by
  induction bs generalizing place n used with
  | nil => simp [scan] at h
  | cons b bs ih =>
    rw [scan] at h
    split at h
    · simp at h
    · rename_i hfits
      simp only [Bool.and_eq_true, decide_eq_true_eq, not_and] at hfits
      split at h
      · rename_i hend
        refine ⟨[b], bs, rfl, spelled_singleton.mpr ⟨hplace, hend, ?_⟩⟩
        intro hlast
        exact UInt8.not_lt.mp (hfits (by omega))
      · rename_i hgoes
        -- at the last place no byte goes on
        have hnext : place + 1 < maxLength := by
          by_contra hlast
          have hle := UInt8.not_lt.mp (hfits (by omega))
          exact hgoes (UInt8.lt_of_le_of_lt hle (by decide))
        rcases hscan : scan (place + 1) bs with ⟨_ | m, used'⟩
        · rw [hscan] at h
          simp at h
        · obtain ⟨a, rest, hsplit, ha⟩ := ih hnext hscan
          have hne : a ≠ [] := List.length_pos_iff.mp ha.length_pos
          refine ⟨b :: a, rest, by rw [hsplit]; rfl, (spelled_cons hne).mpr ⟨?_, ha⟩⟩
          exact UInt8.not_lt.mp hgoes

/-- No spelling is the beginning of another one. -/
theorem Spelled.append_inj {a a' x x' : Bytes} (h : Spelled place a) (h' : Spelled place a')
    (heq : a ++ x = a' ++ x') : a = a' ∧ x = x' := by
  have hscan := scan_spelled h x
  rw [heq, scan_spelled h' x'] at hscan
  exact List.append_inj heq (congrArg Prod.snd hscan).symm

/-- A spelled number has no more bits than there is room for. -/
theorem Spelled.value_lt (h : Spelled place bs) : value bs < 2 ^ (64 - 7 * place) := by
  induction bs generalizing place with
  | nil => exact absurd h.length_pos (Nat.lt_irrefl 0)
  | cons b bs ih =>
    by_cases hbs : bs = []
    · subst hbs
      obtain ⟨hplace, hend, hlast⟩ := spelled_singleton.mp h
      rw [value, value, Nat.mul_zero, Nat.add_zero]
      by_cases hp : place + 1 = maxLength
      · have hone : b.toNat ≤ 1 := UInt8.le_iff_toNat_le.mp (hlast hp)
        have hnine : place = 9 := Nat.succ.inj hp
        subst hnine
        omega
      · have hmax : maxLength = 10 := rfl
        calc b.toNat % 128 < 2 ^ 7 := Nat.mod_lt _ (by decide)
          _ ≤ 2 ^ (64 - 7 * place) := Nat.pow_le_pow_right (by decide) (by omega)
    · obtain ⟨-, hrest⟩ := (spelled_cons hbs).mp h
      have hmax : maxLength = 10 := rfl
      have hplace := hrest.length_le
      have hpos := hrest.length_pos
      have hbelow := ih hrest
      have hpow : 2 ^ (64 - 7 * place) = 128 * 2 ^ (64 - 7 * (place + 1)) := by
        rw [show 64 - 7 * place = 7 + (64 - 7 * (place + 1)) by omega, Nat.pow_add]
      rw [value, hpow]
      omega

end Spelled

/-! ## Writing -/

theorem length_encode_pos (n : Nat) : 0 < (encode n).length := by
  rw [encode]
  split <;> exact Nat.succ_pos _

theorem length_encode_le {n : Nat} (k : Nat) (h : n < 128 ^ (k + 1)) :
    (encode n).length ≤ k + 1 := by
  induction k generalizing n with
  | zero =>
    have hshort : n < 128 := by omega
    rw [encode, if_pos hshort]
    exact Nat.le_refl _
  | succ k ih =>
    rw [encode]
    split
    · exact Nat.succ_le_succ (Nat.zero_le _)
    · have hshort : n / 128 < 128 ^ (k + 1) := by
        rw [Nat.div_lt_iff_lt_mul (by decide), ← Nat.pow_succ]
        exact h
      exact Nat.succ_le_succ (ih hshort)

theorem length_encode_succ {n : Nat} (h : 128 ≤ n) :
    (encode n).length = (encode (n / 128)).length + 1 := by
  rw [encode, if_neg (Nat.not_lt.mpr h), List.length_cons]

theorem value_encode (n : Nat) : value (encode n) = n := by
  induction n using Nat.strongRecOn with
  | ind n ih =>
    rw [encode]
    by_cases hsmall : n < 128
    · rw [if_pos hsmall, value, value, UInt8.toNat_ofNat']
      omega
    · rw [if_neg hsmall, value, ih (n / 128) (Nat.div_lt_self (by omega) (by decide)),
        UInt8.toNat_ofNat']
      omega

/-- A number that fits into 64 bits at its place is spelled there. -/
theorem spelled_encode {place n : Nat} (hplace : place < maxLength)
    (h : n < 2 ^ (64 - 7 * place)) : Spelled place (encode n) := by
  induction n using Nat.strongRecOn generalizing place with
  | ind n ih =>
    have hmax : maxLength = 10 := rfl
    rw [encode]
    by_cases hsmall : n < 128
    · have hbyte : (UInt8.ofNat n).toNat = n := by
        rw [UInt8.toNat_ofNat']
        omega
      rw [if_pos hsmall]
      refine spelled_singleton.mpr ⟨hplace, ?_, ?_⟩
      · rw [UInt8.lt_iff_toNat_lt, hbyte]
        exact hsmall
      · intro hlast
        have hnine : place = 9 := Nat.succ.inj hlast
        subst hnine
        rw [UInt8.le_iff_toNat_le, hbyte]
        exact Nat.le_of_lt_succ h
    · have hbyte : (UInt8.ofNat (n % 128 + 128)).toNat = n % 128 + 128 := by
        rw [UInt8.toNat_ofNat']
        omega
      -- a number of more than one byte does not stand at the last place
      have hnext : place + 1 < maxLength := by
        by_contra hlast
        have hnine : place = 9 := by omega
        subst hnine
        omega
      have hpow : 2 ^ (64 - 7 * place) = 128 * 2 ^ (64 - 7 * (place + 1)) := by
        rw [show 64 - 7 * place = 7 + (64 - 7 * (place + 1)) by omega, Nat.pow_add]
      rw [if_neg hsmall]
      refine (spelled_cons (List.length_pos_iff.mp (length_encode_pos _))).mpr ⟨?_, ?_⟩
      · rw [UInt8.le_iff_toNat_le, hbyte]
        exact Nat.le_add_left _ _
      · refine ih (n / 128) (Nat.div_lt_self (by omega) (by decide)) hnext ?_
        rw [Nat.div_lt_iff_lt_mul (by decide), Nat.mul_comm, ← hpow]
        exact h

theorem value_lt_pow_length (bs : Bytes) : value bs < 128 ^ bs.length := by
  induction bs with
  | nil => exact Nat.one_pos
  | cons b bs ih =>
    rw [value, List.length_cons, Nat.pow_succ]
    omega

/-- Among the spellings of a number, the shortest one. -/
structure Shortest (n : Nat) (bs : Bytes) : Prop where
  spelled : Spelled 0 bs
  value_eq : value bs = n
  length_le : ∀ a, Spelled 0 a → value a = n → bs.length ≤ a.length

/-- What is written is the shortest spelling. -/
theorem shortest_encode {n : Nat} (h : n < 2 ^ 64) : Shortest n (encode n) := by
  refine ⟨spelled_encode (by decide) h, value_encode n, ?_⟩
  rintro a ha rfl
  obtain ⟨k, hk⟩ := Nat.exists_eq_succ_of_ne_zero (Nat.ne_of_gt ha.length_pos)
  have hbelow := value_lt_pow_length a
  rw [hk] at hbelow ⊢
  exact length_encode_le k hbelow

end NoiseChannel.Varint
