import NoiseChannel.Proofs.ReaderCalls

/-!
# Embedded messages are bracketed

Entering an embedded message turns the reader round: the place that it had reached becomes the end,
and it goes back to where the bytes begin. However much of the inside is read, in whatever nesting,
all that is found lies in between (`Balanced.within`), and leaving takes the reader back to the
place from which it had entered (`endEmbedded_entered`). So the enclosing message is read on as if
the field had been skipped.
-/

namespace NoiseChannel

namespace Reader

/-! ## Advancing within a message -/

section Advancing

variable {r r' : Reader} {tag : UInt8}

theorem number_some {n : Nat} (h : r.number = (some n, r')) :
    ∃ used, 0 < used ∧ r.pos + used ≤ r.stop ∧ r' = r.skip used := by
  rw [number] at h
  rcases hscan : Varint.scan 0 ((r.input.drop r.pos).take (min Varint.maxLength (r.stop - r.pos)))
    with ⟨_ | m, used⟩
  · rw [hscan] at h
    cases h
  · rw [hscan] at h
    cases h
    obtain ⟨a, rest, hsplit, ha⟩ := Varint.exists_spelled_of_scan (by decide) hscan
    have hlen := congrArg List.length hsplit
    rw [List.length_take, List.length_append] at hlen
    rw [hsplit, Varint.scan_spelled ha] at hscan
    cases hscan
    have hpos := ha.length_pos
    exact ⟨a.length, hpos, by omega, rfl⟩

/-- The field that has been found ends where the reader is now, within the message. Its bytes, if it
has any, are the last ones up to there. -/
structure Found (r r' : Reader) : Prop where
  failed_eq : r'.failed = false
  input_eq : r'.input = r.input
  stop_eq : r'.stop = r.stop
  pos_lt : r.pos < r'.pos
  pos_le : r'.pos ≤ r.stop
  start_lt : r'.kind = some .lengthDelimited → r.pos < r'.start
  start_add : r'.kind = some .lengthDelimited → r'.start + r'.value = r'.pos

theorem found_of_fieldValue {kind : WireKind} {used : Nat} (hused : 0 < used)
    (hok : r.failed = false) (h : ((r.skip used).fieldValue kind).failed = false) :
    Found r ((r.skip used).fieldValue kind) := by
  rw [fieldValue] at h ⊢
  rcases hnumber : (r.skip used).number with ⟨_ | n, q⟩
  · rw [hnumber] at h
    exact absurd (number_none hnumber) (Bool.eq_false_iff.mp h)
  · obtain ⟨used', hused', hle, rfl⟩ := number_some hnumber
    rw [hnumber] at h
    have hstop : r.pos + used + used' ≤ r.stop := hle
    cases kind with
    | varint =>
      have hpos : r.pos < r.pos + used + used' := by omega
      refine ⟨hok, rfl, rfl, hpos, hstop, ?_, ?_⟩
      · rintro ⟨⟩
      · rintro ⟨⟩
    | lengthDelimited =>
      simp only [] at h ⊢
      split at h
      · cases h
      · rename_i hfits
        rw [if_neg hfits]
        have hroom : n ≤ r.stop - (r.pos + used + used') := Nat.not_lt.mp hfits
        have hstart : r.pos < r.pos + used + used' := by omega
        have hend : r.pos + used + used' + n ≤ r.stop := by omega
        exact ⟨hok, rfl, rfl, Nat.lt_add_right n hstart, hend, fun _ => hstart, fun _ => rfl⟩

theorem found_of_next (h : r.next = (some tag, r')) : Found r r' := by
  rw [next] at h
  split at h
  · cases h
  · rename_i hgoes
    rw [Bool.not_eq_true, Bool.or_eq_false_iff] at hgoes
    rcases hnumber : r.number with ⟨_ | header, q⟩
    · rw [hnumber] at h
      cases h
    · obtain ⟨used, hused, -, rfl⟩ := number_some hnumber
      rw [hnumber] at h
      simp only [] at h
      split at h
      · cases h
      · split at h
        · cases h
        · rename_i kind _
          by_cases hfailed : ((r.skip used).fieldValue kind).failed = true
          · rw [if_pos hfailed] at h
            cases h
          · rw [if_neg hfailed] at h
            cases h
            exact found_of_fieldValue hused hgoes.1 (Bool.eq_false_iff.mpr hfailed)

/-- Where no field is found, either nothing has happened or something has failed. -/
theorem next_none_cases (h : r.next = (none, r')) : r' = r ∨ r'.failed = true := by
  rw [next] at h
  split at h
  · cases h
    exact Or.inl rfl
  · rcases hnumber : r.number with ⟨_ | header, q⟩
    · rw [hnumber] at h
      cases h
      exact Or.inr (number_none hnumber)
    · rw [hnumber] at h
      simp only [] at h
      split at h
      · cases h
        exact Or.inr rfl
      · split at h
        · cases h
          exact Or.inr rfl
        · split at h
          · cases h
            exact Or.inr ‹_›
          · cases h

end Advancing

/-! ## Balanced calls -/

/-- The call neither enters nor leaves an embedded message. -/
def Call.Plain : Call → Prop
  | .startEmbedded => False
  | .endEmbedded _ => False
  | _ => True

/-- Whatever embedded message the calls enter they leave again, the innermost one first, each with
the boundary that entering it gave. -/
inductive Balanced : Reader → List Call → Prop
  | done (r : Reader) : Balanced r []
  | step {r : Reader} {call : Call} {calls : List Call} (hplain : call.Plain)
      (hrest : Balanced (r.after call) calls) : Balanced r (call :: calls)
  | nest {r r₁ : Reader} {outer : Boundary} {inner calls : List Call}
      (hstart : r.startEmbedded = (outer, r₁)) (hinner : Balanced r₁ inner)
      (hrest : Balanced ((r₁.afterAll inner).endEmbedded outer) calls) :
      Balanced r (.startEmbedded :: (inner ++ .endEmbedded outer :: calls))

/-- At every place that the calls come through. -/
def Throughout (P : Reader → Prop) : Reader → List Call → Prop
  | r, [] => P r
  | r, call :: calls => P r ∧ Throughout P (r.after call) calls

section Throughout

variable {P : Reader → Prop} {r : Reader}

theorem Throughout.head {calls : List Call} (h : Throughout P r calls) : P r := by
  cases calls with
  | nil => exact h
  | cons call calls => exact h.1

theorem Throughout.last {calls : List Call} (h : Throughout P r calls) :
    P (r.afterAll calls) := by
  induction calls generalizing r with
  | nil => exact h
  | cons call calls ih => exact ih h.2

theorem throughout_append (calls calls' : List Call) :
    Throughout P r (calls ++ calls') ↔
      Throughout P r calls ∧ Throughout P (r.afterAll calls) calls' := by
  induction calls generalizing r with
  | nil => exact ⟨fun h => ⟨h.head, h⟩, fun h => h.2⟩
  | cons call calls ih =>
    rw [List.cons_append, Throughout, Throughout, ih, and_assoc]
    rfl

end Throughout

/-- Reader and present field lie between two places, and so does the end of the message. -/
structure Within (lo hi : Nat) (r : Reader) : Prop where
  le_pos : lo ≤ r.pos
  pos_le : r.pos ≤ r.stop
  stop_le : r.stop ≤ hi
  le_start : r.kind = some .lengthDelimited → lo ≤ r.start
  start_add : r.kind = some .lengthDelimited → r.start + r.value = r.pos

section Within

variable {lo hi : Nat} {r r' r₁ : Reader} {outer : Boundary}

theorem Within.found (h : Within lo hi r) (hfound : Found r r') : Within lo hi r' := by
  have hpos := hfound.pos_lt
  have hlo := h.le_pos
  refine ⟨by omega, ?_, ?_, ?_, hfound.start_add⟩
  · rw [hfound.stop_eq]
    exact hfound.pos_le
  · rw [hfound.stop_eq]
    exact h.stop_le
  · intro hkind
    exact Nat.le_of_lt (Nat.lt_of_le_of_lt hlo (hfound.start_lt hkind))

/-- A plain call stays in its message. -/
theorem Within.after {call : Call} (h : Within lo hi r) (hplain : call.Plain)
    (hok : (r.after call).failed = false) :
    Within lo hi (r.after call) ∧ (r.after call).stop = r.stop ∧
      (r.after call).input = r.input := by
  cases call with
  | next =>
    change r.next.2.failed = false at hok
    show Within lo hi r.next.2 ∧ r.next.2.stop = r.stop ∧ r.next.2.input = r.input
    rcases hnext : r.next with ⟨_ | tag, r'⟩
    · rw [hnext] at hok
      rcases next_none_cases hnext with rfl | hfailed
      · exact ⟨h, rfl, rfl⟩
      · exact absurd hfailed (Bool.eq_false_iff.mp hok)
    · have hfound := found_of_next hnext
      exact ⟨h.found hfound, hfound.stop_eq, hfound.input_eq⟩
  | read form =>
    change (r.readValue form).2.failed = false at hok
    show Within lo hi (r.readValue form).2 ∧ (r.readValue form).2.stop = r.stop ∧
      (r.readValue form).2.input = r.input
    rcases readValue_snd r form with hread | hread
    · rw [hread]
      exact ⟨h, rfl, rfl⟩
    · rw [hread] at hok
      cases hok
  | kind => exact ⟨h, rfl, rfl⟩
  | finish => exact ⟨h, rfl, rfl⟩
  | startEmbedded => exact hplain.elim
  | endEmbedded outer => exact hplain.elim

/-- Entering takes a byte string. The reader goes back to where it begins, and it ends where the
reader was. -/
theorem startEmbedded_ok (h : r.startEmbedded = (outer, r₁)) (hok : r₁.failed = false) :
    r.kind = some .lengthDelimited ∧ outer = ⟨r.stop⟩ ∧
      r₁ = { r with stop := r.pos, pos := r.start, kind := none } := by
  rw [startEmbedded] at h
  split at h
  · rename_i hfailed
    cases h
    rw [hfailed] at hok
    cases hok
  · split at h
    · rename_i hkind
      cases h
      exact ⟨hkind, rfl, rfl⟩
    · cases h
      cases hok

theorem Within.startEmbedded (h : Within lo hi r) (hstart : r.startEmbedded = (outer, r₁))
    (hok : r₁.failed = false) : Within lo hi r₁ := by
  obtain ⟨hkind, -, rfl⟩ := startEmbedded_ok hstart hok
  have hpos : r.start ≤ r.pos := Nat.le.intro (h.start_add hkind)
  refine ⟨h.le_start hkind, hpos, Nat.le_trans h.pos_le h.stop_le, ?_, ?_⟩
  · rintro ⟨⟩
  · rintro ⟨⟩

/-- Leaving goes to the end of the embedded message, the place from which it was entered. -/
theorem endEmbedded_entered {q : Reader} (hstart : r.startEmbedded = (outer, r₁))
    (hpos : r.pos ≤ r.stop) (hstop : q.stop = r₁.stop) (hinput : q.input = r₁.input)
    (hok : q.failed = false) (hentered : r₁.failed = false) :
    q.endEmbedded outer = { q with pos := r.pos, stop := r.stop, kind := none } := by
  obtain ⟨-, rfl, rfl⟩ := startEmbedded_ok hstart hentered
  have hinside : ¬ r.stop < q.stop := by
    rw [hstop]
    exact Nat.not_lt.mpr hpos
  rw [Reader.endEmbedded, hok, if_neg (by decide), if_neg hinside, hstop]

/-- Balanced calls stay between the two places all the while, and in the end the message that was
being read is being read again. -/
theorem Balanced.within {calls : List Call} (h : Balanced r calls) (hin : Within lo hi r)
    (hok : (r.afterAll calls).failed = false) :
    Throughout (Within lo hi) r calls ∧ (r.afterAll calls).stop = r.stop ∧
      (r.afterAll calls).input = r.input := by
  induction h with
  | done r => exact ⟨hin, rfl, rfl⟩
  | @step r call calls hplain hrest ih =>
    rw [afterAll_cons] at hok ⊢
    obtain ⟨hnow, hstop, hinput⟩ := hin.after hplain (ok_before hok)
    obtain ⟨hthrough, hstop', hinput'⟩ := ih hnow hok
    exact ⟨⟨hin, hthrough⟩, hstop'.trans hstop, hinput'.trans hinput⟩
  | @nest r r₁ outer inner calls hstart hinner hrest ih ihrest =>
    have hentered : r.after .startEmbedded = r₁ := congrArg Prod.snd hstart
    rw [afterAll_cons, hentered, afterAll_append, afterAll_cons] at hok ⊢
    -- inside, then behind the embedded message
    have hend : ((r₁.afterAll inner).endEmbedded outer).failed = false := ok_before hok
    have hdone : (r₁.afterAll inner).failed = false := ok_after (.endEmbedded outer) hend
    have hbegun : r₁.failed = false := ok_before hdone
    obtain ⟨hthrough, hstop, hinput⟩ := ih (hin.startEmbedded hstart hbegun) hdone
    have hleft := endEmbedded_entered hstart hin.pos_le hstop hinput hdone hbegun
    obtain ⟨-, -, hr₁⟩ := startEmbedded_ok hstart hbegun
    have hback : Within lo hi ((r₁.afterAll inner).endEmbedded outer) := by
      rw [hleft]
      refine ⟨hin.le_pos, hin.pos_le, hin.stop_le, ?_, ?_⟩
      · rintro ⟨⟩
      · rintro ⟨⟩
    obtain ⟨hthrough', hstop', hinput'⟩ := ihrest hback hok
    refine ⟨⟨hin, ?_⟩, hstop'.trans ?_, hinput'.trans ?_⟩
    · rw [hentered, throughout_append]
      exact ⟨hthrough, hthrough.last, hthrough'⟩
    · rw [hleft]
    · rw [hleft]
      show (r₁.afterAll inner).input = r.input
      rw [hinput, hr₁]

end Within

/-- An embedded message is bracketed. Let a field have been found that is a byte string, and let it
be entered as a message; then, whatever calls follow in which entering and leaving are balanced, if
none of them fails, leaving does not fail either and takes the reader back to the place and the end
that it had right behind the field. So the enclosing message is read on as if the field had been
skipped: the same field comes next, with the same in all calls after it, or the same failure; and
where the message ends there, what comes behind it in a message around it is the same. Every field
that is found in between lies within the bytes that were entered, header, number and bytes. -/
theorem embedded_message_bracketed {r₀ r r₁ : Reader} {tag : UInt8} {outer : Boundary}
    {calls : List Call} (hnext : r₀.next = (some tag, r))
    (hkind : r.kind = some .lengthDelimited) (hstart : r.startEmbedded = (outer, r₁))
    (hbalanced : r₁.Balanced calls) (hok : (r₁.afterAll calls).failed = false) :
    let r₂ := (r₁.afterAll calls).endEmbedded outer
    (r₂.failed = false ∧ r₂.input = r.input ∧ r₂.pos = r.pos ∧ r₂.stop = r.stop) ∧
      (r₂.next.1 = r.next.1 ∧ r₂.next.2.finish = r.next.2.finish ∧
        (r.next.1 ≠ none → ∀ later, r₂.next.2.answers later = r.next.2.answers later) ∧
        ∀ enclosing, (r.endEmbedded enclosing).failed = false → ∀ later,
          (r₂.endEmbedded enclosing).answers later = (r.endEmbedded enclosing).answers later) ∧
      r.start + r.value = r.pos ∧
      ∀ before after q t q', calls = before ++ .next :: after → q = r₁.afterAll before →
        q.next = (some t, q') →
          r.start ≤ q.pos ∧ q.pos < q'.pos ∧ q'.pos ≤ r.start + r.value ∧
            (q'.kind = some .lengthDelimited →
              q.pos < q'.start ∧ q'.start + q'.value = q'.pos) := by
  intro r₂
  have hfound := found_of_next hnext
  have hbytes := hfound.start_add hkind
  have hpos : r.pos ≤ r.stop := by
    rw [hfound.stop_eq]
    exact hfound.pos_le
  have hbegun : r₁.failed = false := ok_before hok
  have hin : Within r.start r.pos r₁ := by
    obtain ⟨-, -, rfl⟩ := startEmbedded_ok hstart hbegun
    refine ⟨Nat.le_refl _, Nat.le.intro hbytes, Nat.le_refl _, ?_, ?_⟩
    · rintro ⟨⟩
    · rintro ⟨⟩
  obtain ⟨hthrough, hstop, hinput⟩ := hbalanced.within hin hok
  have hleft : r₂ = { r₁.afterAll calls with pos := r.pos, stop := r.stop, kind := none } :=
    endEmbedded_entered hstart hpos hstop hinput hok hbegun
  have hsame : r₁.input = r.input := by
    obtain ⟨-, -, rfl⟩ := startEmbedded_ok hstart hbegun
    rfl
  have hlevel : Level r r₂ := by
    rw [hleft]
    exact ⟨hinput.trans hsame, rfl, rfl, hok.trans hfound.failed_eq.symm⟩
  obtain ⟨htag, hbehind, hlike⟩ := hlevel.next
  refine ⟨⟨hlevel.failed_eq.trans hfound.failed_eq, hlevel.input_eq, hlevel.pos_eq, hlevel.stop_eq⟩,
    ⟨htag, ?_, ?_, ?_⟩, hbytes, ?_⟩
  · rw [finish, finish, hbehind.failed_eq]
  · intro hsome later
    exact (hlike (Or.inl hsome)).answers later
  · intro enclosing hends later
    exact ((hlevel.endEmbedded enclosing).2 (Or.inl hends)).answers later
  · rintro before after q t q' rfl rfl hfind
    have hq := ((throughout_append before _).mp hthrough).1.last
    have hinner := found_of_next hfind
    refine ⟨hq.le_pos, hinner.pos_lt, ?_, ?_⟩
    · rw [hbytes]
      exact Nat.le_trans hinner.pos_le hq.stop_le
    · intro hk
      exact ⟨hinner.start_lt hk, hinner.start_add hk⟩

/-- Of three fields inside, the second one a message again, the last one is left unread. -/
theorem embedded_message_bracketed_nested :
    let r := (Reader.new [0x0A, 8, 0x10, 5, 0x1A, 2, 0x20, 1, 0x2A, 0, 0x30, 7]).next.2
    let calls : List Call :=
      [.next, .read .uint32, .next, .startEmbedded, .next, .endEmbedded ⟨10⟩]
    let r₂ := (r.startEmbedded.2.afterAll calls).endEmbedded ⟨12⟩
    (r₂.failed = false ∧ r₂.input = r.input ∧ r₂.pos = r.pos ∧ r₂.stop = r.stop) ∧
      r₂.next.1 = some 6 ∧
      ∀ later, r₂.next.2.answers later = r.next.2.answers later := by
  intro r calls r₂
  let q := r.startEmbedded.2.afterAll [.next, .read .uint32, .next]
  have hinside : q.startEmbedded = (⟨10⟩, q.startEmbedded.2) := by decide +kernel
  have hnested : Balanced r.startEmbedded.2 calls := by
    have hnext : Call.Plain .next := trivial
    have hread : Call.Plain (.read .uint32) := trivial
    have hnest : Balanced q [.startEmbedded, .next, .endEmbedded ⟨10⟩] :=
      .nest hinside (.step hnext (.done _)) (.done _)
    exact .step hnext (.step hread (.step hnext hnest))
  have hfirst : (Reader.new [0x0A, 8, 0x10, 5, 0x1A, 2, 0x20, 1, 0x2A, 0, 0x30, 7]).next =
      (some 1, r) := by decide +kernel
  have hentered : r.startEmbedded = (⟨12⟩, r.startEmbedded.2) := by decide +kernel
  obtain ⟨hback, ⟨htag, -, hlater, -⟩, -, -⟩ :=
    embedded_message_bracketed hfirst (by decide +kernel) hentered hnested (by decide +kernel)
  have hsix : r.next.1 = some 6 := by decide +kernel
  refine ⟨hback, htag.trans hsix, hlater ?_⟩
  rw [hsix]
  exact Option.some_ne_none 6

end Reader

end NoiseChannel
