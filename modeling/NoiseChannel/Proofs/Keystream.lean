import Mathlib.Tactic.Set
import NoiseChannel.Aead

/-!
# Keystreams and sealed messages

A keystream is as long as it was asked for, so mixing it into a plaintext keeps the plaintext's
length. For ChaCha20 that holds of every key; the key expansion of AES needs all 32 bytes of its
key, else its round keys come out short. Hence sealing and opening undo each other
(`opened_sealed`, `sealed_of_opened`).
-/

namespace NoiseChannel

namespace Bytes

/-- Writing at the front of an area replaces as many bytes as are written. -/
theorem overwrite_zero (area data : Bytes) :
    area.overwrite 0 data = data ++ area.drop data.length := by
  simp [overwrite]

/-- Writing at the front of an area that holds the data keeps the size of the area. -/
theorem length_overwrite_zero {area data : Bytes} (h : data.length ≤ area.length) :
    (area.overwrite 0 data).length = area.length :=
  length_overwrite (by omega)

/-- Data written at the front of an area are read back from there. -/
theorem take_overwrite_zero (area data : Bytes) :
    (area.overwrite 0 data).take data.length = data := by
  simp [overwrite_zero]

/-- What lies behind the data written at the front of an area is untouched. -/
theorem drop_overwrite_zero {area data : Bytes} {n : Nat} (h : data.length ≤ n) :
    (area.overwrite 0 data).drop n = area.drop n :=
  drop_overwrite (by omega)

/-- Data at the front of an area, themselves written over from the front, may as well be replaced
piece by piece: what stands behind the replaced bytes is the same. -/
theorem overwrite_front {area data front : Bytes} {n : Nat} (hn : n ≤ data.length)
    (hfront : front.length ≤ n) :
    (area.overwrite 0 data).overwrite 0 ((data.overwrite 0 front).take n) =
      (area.overwrite 0 data).overwrite 0 front := by
  have hsplit : data.drop front.length =
      (data.drop front.length).take (n - front.length) ++ data.drop n := by
    have hdrop : (data.drop front.length).drop (n - front.length) = data.drop n := by
      rw [List.drop_drop]
      congr 1
      omega
    rw [← hdrop, List.take_append_drop]
  have htake : (data.overwrite 0 front).take n =
      front ++ (data.drop front.length).take (n - front.length) := by
    rw [overwrite_zero, List.take_append, List.take_of_length_le hfront]
  have hlen : ((data.overwrite 0 front).take n).length = n := by
    rw [List.length_take, length_overwrite_zero (by omega), Nat.min_eq_left hn]
  rw [overwrite_zero (area.overwrite 0 data), overwrite_zero (area.overwrite 0 data), hlen, htake,
    overwrite_zero, List.drop_append_of_le_length hn, List.drop_append_of_le_length (by omega),
    List.append_assoc, ← List.append_assoc (List.take _ _), ← hsplit]

theorem chunksUpTo_cons (n fuel : Nat) (b : UInt8) (bs : Bytes) :
    chunksUpTo n (fuel + 1) (b :: bs) =
      (b :: bs).take n :: chunksUpTo n fuel ((b :: bs).drop n) :=
  rfl

/-- A whole number of chunks has chunks of full size only. -/
theorem length_of_mem_chunksUpTo {n : Nat} {c : Bytes} :
    ∀ (fuel k : Nat) (bs : Bytes), bs.length = n * k → c ∈ chunksUpTo n fuel bs → c.length = n
  | 0, _, [], _, h => by simp [chunksUpTo] at h
  | 0, _, _ :: _, _, h => by simp [chunksUpTo] at h
  | _ + 1, _, [], _, h => by simp [chunksUpTo] at h
  | fuel + 1, 0, b :: bs, hk, _ => by simp at hk
  | fuel + 1, k + 1, b :: bs, hk, h => by
    rw [Nat.mul_succ] at hk
    rw [chunksUpTo_cons, List.mem_cons] at h
    rcases h with rfl | h
    · rw [List.length_take]
      omega
    · refine length_of_mem_chunksUpTo fuel k _ ?_ h
      rw [List.length_drop]
      omega

theorem length_of_mem_chunks {n k : Nat} {bs c : Bytes} (hk : bs.length = n * k)
    (h : c ∈ chunks n bs) : c.length = n :=
  length_of_mem_chunksUpTo _ k bs hk h

/-- With enough fuel a whole number of chunks is cut into that number of them. -/
theorem length_chunksUpTo {n : Nat} (hn : 0 < n) :
    ∀ (fuel k : Nat) (bs : Bytes), bs.length = n * k → k ≤ fuel →
      (chunksUpTo n fuel bs).length = k
  | _, 0, [], _, _ => by simp [chunksUpTo]
  | _, 0, b :: bs, hk, _ => by simp at hk
  | _, k + 1, [], hk, _ => by
    rw [Nat.mul_succ] at hk
    simp at hk
    omega
  | fuel + 1, k + 1, b :: bs, hk, hf => by
    rw [Nat.mul_succ] at hk
    rw [chunksUpTo_cons, List.length_cons,
      length_chunksUpTo hn fuel k _ (by rw [List.length_drop]; omega) (by omega)]

theorem length_chunks {n k : Nat} (hn : 0 < n) {bs : Bytes} (hk : bs.length = n * k) :
    (chunks n bs).length = k :=
  length_chunksUpTo hn _ k bs hk (by rw [hk]; exact Nat.le_mul_of_pos_left k hn)

/-- The length of a concatenation of pieces of one length. -/
theorem length_flatten_of_forall {n : Nat} {pieces : List Bytes} (h : ∀ c ∈ pieces, c.length = n) :
    pieces.flatten.length = n * pieces.length := by
  induction pieces with
  | nil => simp
  | cons c cs ih =>
    rw [List.flatten_cons, List.length_append, h c (by simp), List.length_cons,
      ih (fun d hd => h d (by simp [hd])), Nat.mul_succ, Nat.add_comm]

end Bytes

/-! ## ChaCha20 -/

namespace ChaCha20

@[simp] theorem length_keystream (key nonce : Bytes) (counter n : Nat) :
    (keystream key nonce counter n).length = n := by
  have hall : ∀ c ∈ (List.range ((n + 63) / 64)).map fun i =>
      block key nonce (UInt32.ofNat (counter + i)), c.length = 64 := by
    simp [block]
  have hblocks := Bytes.length_flatten_of_forall hall
  rw [List.length_map, List.length_range] at hblocks
  rw [keystream, List.length_take, hblocks]
  omega

end ChaCha20

/-! ## AES -/

namespace Aes256

/-- Every word of a list has four bytes. -/
def AllWords (words : List Bytes) : Prop := ∀ w ∈ words, w.length = 4

theorem allWords_chain {words : List Bytes} (h : AllWords words) {start : Bytes}
    (hs : start.length = 4) : AllWords (chain start words) := by
  induction words generalizing start with
  | nil => simp [AllWords, chain]
  | cons w ws ih =>
    have hw : (Bytes.xor start w).length = 4 := by
      rw [Bytes.length_xor, hs, h w (by simp)]
      rfl
    intro v hv
    rw [chain, List.mem_cons] at hv
    rcases hv with rfl | hv
    · exact hw
    · exact ih (fun u hu => h u (by simp [hu])) hw v hv

@[simp] theorem length_chain (start : Bytes) (words : List Bytes) :
    (chain start words).length = words.length := by
  induction words generalizing start with
  | nil => rfl
  | cons w ws ih => simp [chain, ih]

theorem AllWords.getLastD {words : List Bytes} (h : AllWords words) (hne : words ≠ []) :
    (words.getLastD []).length = 4 := by
  rw [List.getLastD_eq_getLast?, List.getLast?_eq_some_getLast hne, Option.getD_some]
  exact h _ (List.getLast_mem hne)

/-- A group of eight words of four bytes is followed by another such group. -/
theorem nextGroup_words (rc : UInt8) {group : List Bytes} (h : AllWords group)
    (hlen : group.length = 8) :
    AllWords (nextGroup rc group) ∧ (nextGroup rc group).length = 8 := by
  have hlast := h.getLastD (List.ne_nil_of_length_pos (by omega))
  obtain ⟨turned, hturned, heq⟩ : ∃ turned : Bytes, turned.length = 4 ∧ nextGroup rc group =
      chain turned (group.take 4) ++
        chain (((chain turned (group.take 4)).getLastD []).map subByte) (group.drop 4) := by
    refine ⟨_, ?_, rfl⟩
    rw [Bytes.length_xor, List.length_map, List.length_append, List.length_drop, List.length_take,
      hlast]
    rfl
  have hlow : AllWords (chain turned (group.take 4)) :=
    allWords_chain (fun w hw => h w (List.mem_of_mem_take hw)) hturned
  have hlowlen : (chain turned (group.take 4)).length = 4 := by
    rw [length_chain, List.length_take, hlen]
    rfl
  have hmid := hlow.getLastD (List.ne_nil_of_length_pos (by omega))
  have hhigh : AllWords (chain (((chain turned (group.take 4)).getLastD []).map subByte)
      (group.drop 4)) :=
    allWords_chain (fun w hw => h w (List.mem_of_mem_drop hw)) (by rw [List.length_map]; exact hmid)
  rw [heq]
  refine ⟨fun w hw => (List.mem_append.mp hw).elim (hlow w) (hhigh w), ?_⟩
  rw [List.length_append, hlowlen, length_chain, List.length_drop, hlen]

/-- The later groups of key words are as many as there are round constants. -/
theorem laterGroups_words {group : List Bytes} (h : AllWords group) (hlen : group.length = 8) :
    ∀ rcs : List UInt8, (laterGroups rcs group).length = rcs.length ∧
      ∀ g ∈ laterGroups rcs group, AllWords g ∧ g.length = 8 := by
  intro rcs
  induction rcs generalizing group with
  | nil => simp [laterGroups]
  | cons rc rcs ih =>
    obtain ⟨hnext, hnextlen⟩ := nextGroup_words rc h hlen
    obtain ⟨hcount, hall⟩ := ih hnext hnextlen
    refine ⟨by simp [laterGroups, hcount], ?_⟩
    intro g hg
    rw [laterGroups, List.mem_cons] at hg
    rcases hg with rfl | hg
    · exact ⟨hnext, hnextlen⟩
    · exact hall g hg

/-- A key of 32 bytes is expanded to fifteen round keys of sixteen bytes. -/
theorem roundKeys_lengths {key : Bytes} (hkey : key.length = 32) :
    (roundKeys key).length = 15 ∧ ∀ k ∈ roundKeys key, k.length = 16 := by
  have hfirst : AllWords (key.chunks 4) := fun w hw =>
    Bytes.length_of_mem_chunks (n := 4) (k := 8) hkey hw
  have hfirstlen : (key.chunks 4).length = 8 := Bytes.length_chunks (by decide) hkey
  obtain ⟨hcount, hall⟩ := laterGroups_words hfirst hfirstlen roundConstants
  have hgroups : ∀ g ∈ key.chunks 4 :: laterGroups roundConstants (key.chunks 4),
      AllWords g ∧ g.length = 8 := by
    intro g hg
    rcases List.mem_cons.mp hg with rfl | hg
    · exact ⟨hfirst, hfirstlen⟩
    · exact hall g hg
  have hwords : (key.chunks 4 :: laterGroups roundConstants (key.chunks 4)).flatten.flatten.length =
      16 * 16 := by
    rw [Bytes.length_flatten_of_forall (n := 4)]
    · rw [List.length_flatten, List.map_congr_left (g := fun _ => 8) (fun g hg => (hgroups g hg).2),
        List.map_const', List.sum_replicate_nat, List.length_cons, hcount]
      rfl
    · intro w hw
      obtain ⟨g, hg, hwg⟩ := List.mem_flatten.mp hw
      exact (hgroups g hg).1 w hwg
  refine ⟨?_, fun k hk => ?_⟩
  · rw [roundKeys, List.length_take, Bytes.length_chunks (by decide) hwords]
    rfl
  · exact Bytes.length_of_mem_chunks hwords (List.mem_of_mem_take hk)

/-- An encrypted block has sixteen bytes. -/
theorem length_encryptWith {key : Bytes} (hkey : key.length = 32) (block : Bytes) :
    (encryptWith (roundKeys key) block).length = 16 := by
  obtain ⟨hcount, hall⟩ := roundKeys_lengths hkey
  have hne : roundKeys key ≠ [] := List.ne_nil_of_length_pos (by omega)
  have hlast : ((roundKeys key).getLastD []).length = 16 := by
    rw [List.getLastD_eq_getLast?, List.getLast?_eq_some_getLast hne, Option.getD_some]
    exact hall _ (List.getLast_mem hne)
  rw [encryptWith, Bytes.length_xor, hlast, shiftRows, List.length_map]
  rfl

end Aes256

/-! ## Both ciphers -/

namespace Aead

theorem length_keystream (kind : CipherKind) {key : Bytes} (hkey : key.length = keyLength)
    (nonce : Bytes) (n : Nat) : (keystream kind key nonce n).length = n := by
  cases kind with
  | chaChaPoly => simp [keystream]
  | aesGcm =>
    have hall : ∀ c ∈ (List.range ((n + 15) / 16)).map fun i =>
        Aes256.encryptWith (Aes256.roundKeys key) (counterBlock nonce (i + 2)), c.length = 16 := by
      intro c hc
      obtain ⟨i, -, rfl⟩ := List.mem_map.mp hc
      exact Aes256.length_encryptWith hkey _
    have hblocks := Bytes.length_flatten_of_forall hall
    rw [List.length_map, List.length_range] at hblocks
    rw [keystream, List.length_take, hblocks]
    omega

/-- A sealed message is longer than its plaintext by the tag. -/
theorem length_sealed (kind : CipherKind) {key : Bytes} (hkey : key.length = keyLength)
    (counter : UInt64) (ad plaintext : Bytes) :
    (sealed kind key counter ad plaintext).length = plaintext.length + tagLength := by
  simp [sealed, length_keystream kind hkey]

/-- Whatever the key, a sealed message is at most so long. -/
theorem length_sealed_le (kind : CipherKind) (key : Bytes) (counter : UInt64)
    (ad plaintext : Bytes) :
    (sealed kind key counter ad plaintext).length ≤ plaintext.length + tagLength := by
  simp only [sealed, List.length_append, Bytes.length_xor, length_tag]
  omega

/-- Opening gives no more bytes than the message has in front of its tag. -/
theorem length_opened_le {kind : CipherKind} {key : Bytes} {counter : UInt64}
    {ad message plaintext : Bytes} (h : opened? kind key counter ad message = some plaintext) :
    plaintext.length ≤ message.length - tagLength := by
  simp only [opened?] at h
  split at h
  · obtain rfl := Option.some.inj h
    rw [Bytes.length_xor, List.length_take]
    omega
  · cases h

/-- With a key of full length, opening gives exactly the bytes in front of the tag. -/
theorem length_opened {kind : CipherKind} {key : Bytes} (hkey : key.length = keyLength)
    {counter : UInt64} {ad message plaintext : Bytes}
    (h : opened? kind key counter ad message = some plaintext) :
    plaintext.length = message.length - tagLength := by
  simp only [opened?] at h
  split at h
  · obtain rfl := Option.some.inj h
    simp [length_keystream kind hkey]
  · cases h

/-- Opening undoes sealing under the same key, counter and associated data. -/
theorem opened_sealed (kind : CipherKind) {key : Bytes} (hkey : key.length = keyLength)
    (counter : UInt64) (ad plaintext : Bytes) :
    opened? kind key counter ad (sealed kind key counter ad plaintext) = some plaintext := by
  set n := nonce kind counter with hn
  set ciphertext := Bytes.xor plaintext (keystream kind key n plaintext.length) with hc
  have hclen : ciphertext.length = plaintext.length := by
    simp [hc, length_keystream kind hkey]
  have hsealed : sealed kind key counter ad plaintext =
      ciphertext ++ tag kind key n ad ciphertext := rfl
  have hfront : (sealed kind key counter ad plaintext).length - tagLength = ciphertext.length := by
    rw [length_sealed kind hkey, hclen]
    omega
  simp only [opened?, hfront]
  rw [hsealed, List.take_left, List.drop_left, if_pos rfl, hclen, hc]
  exact congrArg some (Bytes.xor_xor_cancel (Nat.le_of_eq (length_keystream kind hkey n _).symm))

/-- What is shorter than a tag does not open. -/
theorem opened?_short (kind : CipherKind) (key : Bytes) (counter : UInt64) (ad : Bytes)
    {message : Bytes} (h : message.length < tagLength) :
    opened? kind key counter ad message = none := by
  unfold opened?
  refine if_neg fun htag => ?_
  have hlen := congrArg List.length htag
  rw [length_tag, List.length_drop] at hlen
  omega

/-- A message that opens to a plaintext is that plaintext sealed. -/
theorem sealed_of_opened {kind : CipherKind} {key : Bytes} (hkey : key.length = keyLength)
    {counter : UInt64} {ad message plaintext : Bytes}
    (h : opened? kind key counter ad message = some plaintext) :
    sealed kind key counter ad plaintext = message := by
  have hlen := length_opened hkey h
  simp only [opened?] at h
  split at h
  · rename_i htag
    generalize hbody : message.take (message.length - tagLength) = body at h htag
    have hbodylen : body.length = message.length - tagLength := by
      rw [← hbody, List.length_take]
      omega
    have hplain := Option.some.inj h
    have hbody' : Bytes.xor plaintext (keystream kind key (nonce kind counter) plaintext.length) =
        body := by
      rw [hlen, ← hbodylen, ← hplain]
      exact Bytes.xor_xor_cancel (Nat.le_of_eq (length_keystream kind hkey _ _).symm)
    rw [sealed, hbody', htag, ← hbody, List.take_append_drop]
  · cases h

end Aead

end NoiseChannel
