import NoiseChannel.Link.Options
import NoiseChannel.Proofs.Naming

/-!
# Link options after any calls

The calls on link options as data, and the options that can come about by them (`Made`). Options are
copied as a whole, so each have a past of plain calls: those made on them, and before a copy those
made on the options that were copied (`Made.replay`). What one call can do to the list of protocols
is said once (`revises`). From it follow by induction the bounds that hold at any time
(`Made.wellKept`) and the order of the list, which is that of the calls that brought the protocols
onto it (`Made.ordered`).
-/

namespace NoiseChannel.LinkOptions

/-! ## Calls -/

/-- A call that may change link options, with its arguments. -/
inductive Call where
  | setLocalKeyPair (pair : KeyPair)
  | setLocalPrivateKey (secret : Bytes)
  | generateLocalKeyPair (entropy : Entropy)
  | removeLocalKeyPair
  | setRemotePublic (key : PublicKey)
  | removeRemotePublic
  | setPsk (psk : PresharedKey)
  | setPresharedKey (bytes : Bytes)
  | removePsk
  | clear
  | addProtocol (p : Protocol)
  | removeProtocol (p : Protocol)
  | setAllowAliases (allow : Bool)
  | setSendBufferSize (size : Nat)
  | setReceiveBufferSize (size : Nat)
  | setPadding (padding : Padding)
  /-- Takes over all settings of other options. -/
  | copyFrom (other : LinkOptions)

/-- The options after a call that gives them back if it succeeds and else leaves them alone, and its
answer. -/
def settle (o : LinkOptions) : Except LinkError LinkOptions → LinkOptions × Except LinkError Unit
  | .ok o' => (o', .ok ())
  | .error e => (o, .error e)

/-- The options after a call, be it successful or not, and its answer. -/
def perform (o : LinkOptions) : Call → LinkOptions × Except LinkError Unit
  | .setLocalKeyPair pair => (o.setLocalKeyPair pair, .ok ())
  | .setLocalPrivateKey secret => o.settle (o.setLocalPrivateKey secret)
  | .generateLocalKeyPair entropy => ((o.generateLocalKeyPair entropy).2, .ok ())
  | .removeLocalKeyPair => (o.removeLocalKeyPair, .ok ())
  | .setRemotePublic key => (o.setRemotePublic key, .ok ())
  | .removeRemotePublic => (o.removeRemotePublic, .ok ())
  | .setPsk psk => (o.setPsk psk, .ok ())
  | .setPresharedKey bytes => o.settle (o.setPresharedKey bytes)
  | .removePsk => (o.removePsk, .ok ())
  | .clear => (o.clear, .ok ())
  | .addProtocol p => o.settle (o.addProtocol p)
  | .removeProtocol p => (o.removeProtocol p, .ok ())
  | .setAllowAliases allow => (o.setAllowAliases allow, .ok ())
  | .setSendBufferSize size => (o.setSendBufferSize size, .ok ())
  | .setReceiveBufferSize size => (o.setReceiveBufferSize size, .ok ())
  | .setPadding padding => (o.setPadding padding, .ok ())
  | .copyFrom other => (other, .ok ())

def after (o : LinkOptions) (call : Call) : LinkOptions := (o.perform call).1

def afterAll (o : LinkOptions) (calls : List Call) : LinkOptions := calls.foldl after o

theorem afterAll_snoc (o : LinkOptions) (calls : List Call) (call : Call) :
    o.afterAll (calls ++ [call]) = (o.afterAll calls).after call := by
  rw [afterAll, List.foldl_append]
  rfl

/-- The call concerns these options alone, and a protocol that it names is registered. -/
def Call.Plain : Call → Prop
  | .addProtocol p | .removeProtocol p => p ∈ Protocol.registry
  | .copyFrom _ => False
  | _ => True

/-- Options that can come about, and the calls that have made them what they are: those on the
options themselves, and before a copy those on the options that were copied. -/
inductive Made : LinkOptions → List Call → Prop
  | fresh : Made new []
  | call {o : LinkOptions} {past : List Call} {call : Call} (h : Made o past)
      (hplain : call.Plain) : Made (o.after call) (past ++ [call])
  | copied {o other : LinkOptions} {past past' : List Call} (h : Made o past)
      (hother : Made other past') : Made (o.after (.copyFrom other)) past'

/-- What has been copied is as if the calls on it had been made on the copy. -/
theorem Made.replay {o : LinkOptions} {past : List Call} (h : Made o past) :
    o = new.afterAll past := by
  induction h with
  | fresh => rfl
  | @call o past call h hplain ih => rw [afterAll_snoc, ← ih]
  | copied h hother ih ihother => exact ihother

/-! ## What a call does -/

/-- How a call on options revises their list of protocols. -/
inductive Revises (o : LinkOptions) : Call → List Protocol → Prop
  /-- The list stays as it is; a protocol that was to be added is on it, or there is no room. -/
  | kept {call : Call} (hremove : ∀ p, call ≠ .removeProtocol p)
      (hadd : ∀ p, call = .addProtocol p →
        p ∈ o.protocols ∧ o.addProtocol p = .ok o ∨
          p ∉ o.protocols ∧ maxProtocols ≤ o.protocols.length ∧
            o.addProtocol p = .error .tooManyProtocols) :
      Revises o call o.protocols
  /-- A protocol is added at the end. -/
  | added {p : Protocol} (hnew : p ∉ o.protocols) (hroom : o.protocols.length < maxProtocols)
      (hok : o.addProtocol p = .ok { o with protocols := o.protocols ++ [p] }) :
      Revises o (.addProtocol p) (o.protocols ++ [p])
  /-- A protocol is taken off. -/
  | removed (p : Protocol) : Revises o (.removeProtocol p) (o.protocols.filter fun q => q ≠ p)

section Step

variable {o : LinkOptions} {call : Call} {p : Protocol}

/-- Among registered protocols those of one name are the same. -/
theorem any_same_iff (hregistered : ∀ q ∈ o.protocols, q ∈ Protocol.registry)
    (hp : p ∈ Protocol.registry) : o.protocols.any p.same = true ↔ p ∈ o.protocols := by
  simp only [List.any_eq_true, Protocol.same, beq_iff_eq]
  constructor
  · rintro ⟨q, hq, hname⟩
    rw [Protocol.eq_of_name hp (hregistered q hq) hname]
    exact hq
  · intro hmem
    exact ⟨p, hmem, rfl⟩

theorem after_addProtocol_ok {o' : LinkOptions} (hok : o.addProtocol p = .ok o') :
    o.after (.addProtocol p) = o' := by
  rw [after, perform, hok, settle]

theorem after_addProtocol_error {e : LinkError} (herror : o.addProtocol p = .error e) :
    o.after (.addProtocol p) = o := by
  rw [after, perform, herror, settle]

theorem revises_addProtocol (hregistered : ∀ q ∈ o.protocols, q ∈ Protocol.registry)
    (hp : p ∈ Protocol.registry) :
    Revises o (.addProtocol p) (o.after (.addProtocol p)).protocols := by
  by_cases hmem : p ∈ o.protocols
  · have hok : o.addProtocol p = .ok o := if_pos ((any_same_iff hregistered hp).mpr hmem)
    rw [after_addProtocol_ok hok]
    refine .kept (fun q hq => nomatch hq) ?_
    rintro _ ⟨⟩
    exact Or.inl ⟨hmem, hok⟩
  · have hnone : ¬ o.protocols.any p.same = true :=
      fun hany => hmem ((any_same_iff hregistered hp).mp hany)
    by_cases hfull : maxProtocols ≤ o.protocols.length
    · have hrefused : o.addProtocol p = .error .tooManyProtocols := by
        rw [addProtocol, if_neg hnone, if_pos hfull]
      rw [after_addProtocol_error hrefused]
      refine .kept (fun q hq => nomatch hq) ?_
      rintro _ ⟨⟩
      exact Or.inr ⟨hmem, hfull, hrefused⟩
    · have hok : o.addProtocol p = .ok { o with protocols := o.protocols ++ [p] } := by
        rw [addProtocol, if_neg hnone, if_neg hfull]
      rw [after_addProtocol_ok hok]
      exact .added hmem (Nat.not_le.mp hfull) hok

theorem revises_removeProtocol (hregistered : ∀ q ∈ o.protocols, q ∈ Protocol.registry)
    (hp : p ∈ Protocol.registry) :
    Revises o (.removeProtocol p) (o.after (.removeProtocol p)).protocols := by
  have hsame : (o.after (.removeProtocol p)).protocols = o.protocols.filter fun q => q ≠ p := by
    refine List.filter_congr fun q hq => ?_
    have hname : q.same p = true ↔ q = p := by
      rw [Protocol.same, beq_iff_eq]
      exact ⟨Protocol.eq_of_name (hregistered q hq) hp, congrArg Protocol.name⟩
    by_cases hqp : q = p
    · rw [hname.mpr hqp]
      simp [hqp]
    · rw [Bool.eq_false_iff.mpr fun hsame => hqp (hname.mp hsame)]
      simp [hqp]
  rw [hsame]
  exact .removed p

/-- Only the calls on the list change it. -/
theorem protocols_after_of_ne (hplain : call.Plain) (hadd : ∀ p, call ≠ .addProtocol p)
    (hremove : ∀ p, call ≠ .removeProtocol p) : (o.after call).protocols = o.protocols := by
  rw [after]
  cases call with
  | addProtocol p => exact (hadd p rfl).elim
  | removeProtocol p => exact (hremove p rfl).elim
  | copyFrom other => exact hplain.elim
  | setLocalPrivateKey secret =>
    rw [perform, setLocalPrivateKey]
    cases KeyPair.ofBytes secret <;> rfl
  | setPresharedKey bytes =>
    rw [perform, setPresharedKey]
    cases PresharedKey.ofBytes bytes <;> rfl
  | setSendBufferSize size => rw [perform, setSendBufferSize]
  | setReceiveBufferSize size => rw [perform, setReceiveBufferSize]
  | _ => rfl

theorem revises (hregistered : ∀ q ∈ o.protocols, q ∈ Protocol.registry) (hplain : call.Plain) :
    Revises o call (o.after call).protocols := by
  by_cases hadd : ∃ p, call = .addProtocol p
  · obtain ⟨p, rfl⟩ := hadd
    exact revises_addProtocol hregistered hplain
  by_cases hremove : ∃ p, call = .removeProtocol p
  · obtain ⟨p, rfl⟩ := hremove
    exact revises_removeProtocol hregistered hplain
  have hadd' : ∀ p, call ≠ .addProtocol p := not_exists.mp hadd
  have hremove' : ∀ p, call ≠ .removeProtocol p := not_exists.mp hremove
  rw [protocols_after_of_ne hplain hadd' hremove']
  exact .kept hremove' fun p hp => (hadd' p hp).elim

end Step

/-! ## Bounds -/

/-- The size is one that a buffer may have. -/
def Fits (size : Nat) : Prop := 128 ≤ size ∧ size ≤ 2048

theorem fits_clampSize (size : Nat) : Fits (clampSize size) := by
  rw [Fits, clampSize, minBufferSize, maxBufferSize]
  omega

/-- A size that a buffer may have is advertised as it is. -/
theorem Fits.advertised? {size : Nat} (h : Fits size) :
    (advertised? size).map UInt32.toNat = some size := by
  have hsmall : size < UInt32.size := Nat.lt_of_le_of_lt h.2 (by decide)
  rw [LinkOptions.advertised?, if_pos hsmall, Option.map_some, UInt32.toNat_ofNat_of_lt' hsmall]

/-- What holds of link options at any time. -/
structure WellKept (o : LinkOptions) : Prop where
  registered : ∀ p ∈ o.protocols, p ∈ Protocol.registry
  nodup : o.protocols.Nodup
  few : o.protocols.length ≤ maxProtocols
  sendSize : Fits o.sendBufferSize
  receiveSize : Fits o.receiveBufferSize

theorem wellKept_new : WellKept new where
  registered := List.forall_mem_nil _
  nodup := .nil
  few := Nat.zero_le _
  sendSize := by rw [Fits]; decide
  receiveSize := by rw [Fits]; decide

namespace WellKept

variable {o : LinkOptions} {call : Call}

theorem sizes_after (h : WellKept o) (hplain : call.Plain) :
    Fits (o.after call).sendBufferSize ∧ Fits (o.after call).receiveBufferSize := by
  rw [LinkOptions.after]
  cases call with
  | setSendBufferSize size => exact ⟨fits_clampSize size, h.receiveSize⟩
  | setReceiveBufferSize size => exact ⟨h.sendSize, fits_clampSize size⟩
  | setLocalPrivateKey secret =>
    rw [perform, setLocalPrivateKey]
    cases KeyPair.ofBytes secret <;> exact ⟨h.sendSize, h.receiveSize⟩
  | setPresharedKey bytes =>
    rw [perform, setPresharedKey]
    cases PresharedKey.ofBytes bytes <;> exact ⟨h.sendSize, h.receiveSize⟩
  | addProtocol p =>
    rw [perform, addProtocol]
    split
    · exact ⟨h.sendSize, h.receiveSize⟩
    · split <;> exact ⟨h.sendSize, h.receiveSize⟩
  | copyFrom other => exact hplain.elim
  | _ => exact ⟨h.sendSize, h.receiveSize⟩

protected theorem after (h : WellKept o) (hplain : call.Plain) : WellKept (o.after call) := by
  obtain ⟨hsend, hreceive⟩ := h.sizes_after hplain
  suffices hlist : (∀ p ∈ (o.after call).protocols, p ∈ Protocol.registry) ∧
      (o.after call).protocols.Nodup ∧ (o.after call).protocols.length ≤ maxProtocols from
    ⟨hlist.1, hlist.2.1, hlist.2.2, hsend, hreceive⟩
  have hrevises := revises h.registered hplain
  generalize (o.after call).protocols = protocols at hrevises
  cases hrevises with
  | kept => exact ⟨h.registered, h.nodup, h.few⟩
  | @added p hnew hroom =>
    refine ⟨fun q hq => ?_, List.nodup_append.mpr ⟨h.nodup, List.pairwise_singleton _ p, ?_⟩, ?_⟩
    · rcases List.mem_append.mp hq with hq | hq
      · exact h.registered q hq
      · rw [List.mem_singleton.mp hq]
        exact hplain
    · intro q hq r hr hqr
      rw [List.mem_singleton.mp hr] at hqr
      exact hnew (hqr ▸ hq)
    · rw [List.length_append]
      exact hroom
  | removed p =>
    exact ⟨fun q hq => h.registered q (List.mem_filter.mp hq).1, h.nodup.filter _,
      Nat.le_trans (List.length_filter_le _ _) h.few⟩

end WellKept

theorem Made.wellKept {o : LinkOptions} {past : List Call} (h : Made o past) : WellKept o := by
  induction h with
  | fresh => exact wellKept_new
  | call h hplain ih => exact ih.after hplain
  | copied h hother ih ihother => exact ihother

/-! ## The order of the list -/

/-- The call in place `n` of a past has put `p` on the list, and no later call has taken it off. -/
structure Inserted (past : List Call) (n : Nat) (p : Protocol) : Prop where
  called : past[n]? = some (.addProtocol p)
  absent : p ∉ (new.afterAll (past.take n)).protocols
  accepted : ((new.afterAll (past.take n)).perform (.addProtocol p)).2 = .ok ()
  lasting : ∀ m, n < m → past[m]? ≠ some (.removeProtocol p)

section Order

variable {past : List Call} {call : Call} {n : Nat} {p : Protocol}

theorem Inserted.lt_length (h : Inserted past n p) : n < past.length :=
  (List.getElem?_eq_some_iff.mp h.called).1

/-- Behind a place of a list no `b` comes, and the list is extended by an `a`. -/
theorem not_later_snoc {α : Type} {l : List α} {a b : α} :
    (∀ m, n < m → (l ++ [a])[m]? ≠ some b) ↔
      (∀ m, n < m → l[m]? ≠ some b) ∧ (n < l.length → a ≠ b) := by
  constructor
  · intro h
    refine ⟨fun m hm hb => h m hm ?_, fun hlast hab => h l.length hlast ?_⟩
    · rw [List.getElem?_append_left (List.getElem?_eq_some_iff.mp hb).1, hb]
    · rw [List.getElem?_concat_length, hab]
  · rintro ⟨h, hlast⟩ m hm hb
    have hmle : m < l.length + 1 := by simpa using (List.getElem?_eq_some_iff.mp hb).1
    rcases Nat.lt_or_eq_of_le (Nat.le_of_lt_succ hmle) with hlt | rfl
    · exact h m hm ((List.getElem?_append_left hlt).symm.trans hb)
    · rw [List.getElem?_concat_length] at hb
      exact hlast hm (Option.some.inj hb)

theorem inserted_snoc_of_lt (hn : n < past.length) :
    Inserted (past ++ [call]) n p ↔ Inserted past n p ∧ call ≠ .removeProtocol p := by
  have htake : (past ++ [call]).take n = past.take n :=
    List.take_append_of_le_length (Nat.le_of_lt hn)
  have hcall : (past ++ [call])[n]? = past[n]? := List.getElem?_append_left hn
  constructor
  · rintro ⟨hcalled, habsent, haccepted, hlasting⟩
    rw [htake] at habsent haccepted
    obtain ⟨hlasting, hlast⟩ := not_later_snoc.mp hlasting
    exact ⟨⟨hcall ▸ hcalled, habsent, haccepted, hlasting⟩, hlast hn⟩
  · rintro ⟨⟨hcalled, habsent, haccepted, hlasting⟩, hlast⟩
    rw [← htake] at habsent haccepted
    exact ⟨hcall.trans hcalled, habsent, haccepted,
      not_later_snoc.mpr ⟨hlasting, fun _ => hlast⟩⟩

theorem inserted_snoc_length :
    Inserted (past ++ [call]) past.length p ↔
      call = .addProtocol p ∧ p ∉ (new.afterAll past).protocols ∧
        ((new.afterAll past).perform (.addProtocol p)).2 = .ok () := by
  have htake : (past ++ [call]).take past.length = past := List.take_left
  have hcall : (past ++ [call])[past.length]? = some call := List.getElem?_concat_length
  constructor
  · rintro ⟨hcalled, habsent, haccepted, -⟩
    rw [htake] at habsent haccepted
    exact ⟨Option.some.inj (hcall.symm.trans hcalled), habsent, haccepted⟩
  · rintro ⟨rfl, habsent, haccepted⟩
    rw [← htake] at habsent haccepted
    refine ⟨hcall, habsent, haccepted, not_later_snoc.mpr ⟨fun m hm hremoved => ?_,
      fun hlt => (Nat.lt_irrefl _ hlt).elim⟩⟩
    exact Nat.lt_asymm hm (List.getElem?_eq_some_iff.mp hremoved).1

/-- With one more call, a protocol has been put on the list by an earlier call, and the new one does
not take it off, or it has been put there by the new call. -/
theorem inserted_snoc :
    Inserted (past ++ [call]) n p ↔
      Inserted past n p ∧ call ≠ .removeProtocol p ∨
        n = past.length ∧ call = .addProtocol p ∧ p ∉ (new.afterAll past).protocols ∧
          ((new.afterAll past).perform (.addProtocol p)).2 = .ok () := by
  constructor
  · intro h
    have hn : n < past.length + 1 := by simpa using h.lt_length
    rcases Nat.lt_or_eq_of_le (Nat.le_of_lt_succ hn) with hlt | rfl
    · exact Or.inl ((inserted_snoc_of_lt hlt).mp h)
    · exact Or.inr ⟨rfl, inserted_snoc_length.mp h⟩
  · rintro (⟨h, hcall⟩ | ⟨rfl, h⟩)
    · exact (inserted_snoc_of_lt h.lt_length).mpr ⟨h, hcall⟩
    · exact inserted_snoc_length.mpr h

/-- The protocols on the list are those put there and not taken off since, in the order of the calls
that have put them there. -/
structure Ordered (past : List Call) : Prop where
  inserted : ∀ p, p ∈ (new.afterAll past).protocols ↔ ∃ n, Inserted past n p
  order : (new.afterAll past).protocols.Pairwise fun p q =>
    ∀ n m, Inserted past n p → Inserted past m q → n < m

theorem ordered_nil : Ordered [] where
  inserted p := by
    refine ⟨fun h => (List.not_mem_nil h).elim, ?_⟩
    rintro ⟨n, hn⟩
    exact (Nat.not_lt_zero n hn.lt_length).elim
  order := .nil

/-- The protocols stay in order if they stay on the list or leave it. -/
theorem Ordered.sublist {past' : List Call} (h : Ordered past) (keeps : Protocol → Prop)
    (hsub : (new.afterAll past').protocols.Sublist (new.afterAll past).protocols)
    (hmem : ∀ p, p ∈ (new.afterAll past').protocols ↔ p ∈ (new.afterAll past).protocols ∧ keeps p)
    (hinserted : ∀ n p, Inserted past' n p ↔ Inserted past n p ∧ keeps p) : Ordered past' where
  inserted p := by
    rw [hmem, h.inserted]
    simp only [hinserted, exists_and_right]
  order := (h.order.sublist hsub).imp fun hpq n m hn hm =>
    hpq n m ((hinserted n _).mp hn).1 ((hinserted m _).mp hm).1

theorem Ordered.snoc (h : Ordered past) (hwell : WellKept (new.afterAll past))
    (hplain : call.Plain) : Ordered (past ++ [call]) := by
  have hafter : (new.afterAll (past ++ [call])).protocols
      = ((new.afterAll past).after call).protocols := by rw [afterAll_snoc]
  have hrevises := revises hwell.registered hplain
  rw [← hafter] at hrevises
  generalize hlist : (new.afterAll (past ++ [call])).protocols = protocols at hrevises
  cases hrevises with
  | kept hremove hadd =>
    refine h.sublist (fun _ => True) (hlist ▸ .refl _) (fun p => by rw [hlist, and_true])
      fun n p => ?_
    rw [inserted_snoc, and_true]
    refine ⟨?_, fun hn => Or.inl ⟨hn, hremove p⟩⟩
    rintro (⟨hn, -⟩ | ⟨-, hcall, habsent, haccepted⟩)
    · exact hn
    · rcases hadd p hcall with ⟨hmem, -⟩ | ⟨-, -, hrefused⟩
      · exact (habsent hmem).elim
      · rw [perform, hrefused] at haccepted
        cases haccepted
  | removed p =>
    refine h.sublist (fun q => q ≠ p) (hlist ▸ List.filter_sublist)
      (fun q => by rw [hlist, List.mem_filter, decide_eq_true_iff]) fun n q => ?_
    rw [inserted_snoc]
    refine ⟨?_, fun ⟨hn, hq⟩ => Or.inl ⟨hn, fun hcall => hq (Call.removeProtocol.inj hcall).symm⟩⟩
    rintro (⟨hn, hcall⟩ | ⟨-, hcall, -⟩)
    · exact ⟨hn, fun hq => hcall (hq ▸ rfl)⟩
    · cases hcall
  | @added p hnew hroom hok =>
    have haccepted : ((new.afterAll past).perform (.addProtocol p)).2 = .ok () := by
      rw [perform, hok, settle]
    have hinserted : ∀ n q, Inserted (past ++ [.addProtocol p]) n q ↔
        Inserted past n q ∨ n = past.length ∧ q = p := by
      intro n q
      rw [inserted_snoc]
      constructor
      · rintro (⟨hn, -⟩ | ⟨rfl, hcall, -⟩)
        · exact Or.inl hn
        · exact Or.inr ⟨rfl, (Call.addProtocol.inj hcall).symm⟩
      · rintro (hn | ⟨rfl, rfl⟩)
        · exact Or.inl ⟨hn, nofun⟩
        · exact Or.inr ⟨rfl, rfl, hnew, haccepted⟩
    have hnone : ∀ n, ¬ Inserted past n p := fun n hn => hnew ((h.inserted p).mpr ⟨n, hn⟩)
    refine ⟨fun q => ?_, ?_⟩
    · rw [hlist, List.mem_append, List.mem_singleton, h.inserted]
      simp only [hinserted, exists_or, exists_eq_left]
    · rw [hlist, List.pairwise_append]
      refine ⟨h.order.imp_of_mem fun hq hr hqr n m hn hm => ?_, List.pairwise_singleton _ _, ?_⟩
      · have hold : ∀ {q k}, q ∈ (new.afterAll past).protocols →
            Inserted (past ++ [.addProtocol p]) k q → Inserted past k q := by
          intro q k hq hk
          rcases (hinserted k q).mp hk with hk | ⟨-, rfl⟩
          · exact hk
          · exact (hnew hq).elim
        exact hqr n m (hold hq hn) (hold hr hm)
      · intro q hq r hr n m hn hm
        rw [List.mem_singleton.mp hr] at hm
        rcases (hinserted n q).mp hn with hn | ⟨-, rfl⟩
        · rcases (hinserted m p).mp hm with hm | ⟨rfl, -⟩
          · exact (hnone m hm).elim
          · exact hn.lt_length
        · exact (hnew hq).elim

theorem Made.ordered {o : LinkOptions} (h : Made o past) : Ordered past := by
  induction h with
  | fresh => exact ordered_nil
  | call h hplain ih => exact ih.snoc (h.replay ▸ h.wellKept) hplain
  | copied h hother ih ihother => exact ihother

end Order

/-! ## Names and aliases -/

/-- No alias is a name, and no two protocols have an alias in common. -/
theorem alias_unambiguous {p q : Protocol} (hp : p ∈ Protocol.registry)
    (hq : q ∈ Protocol.registry) {a : String} (ha : p.alias? = some a) :
    q.name ≠ a ∧ (q.alias? = some a → q = p) := by
  have hall : ∀ p ∈ Protocol.registry, ∀ q ∈ Protocol.registry,
      p.alias? ≠ some q.name ∧ (p.alias?.isSome → q.alias? = p.alias? → q = p) := by decide
  obtain ⟨hname, hunique⟩ := hall p hp q hq
  rw [ha] at hname hunique
  exact ⟨fun h => hname (congrArg some h.symm), hunique rfl⟩

namespace WellKept

variable {o : LinkOptions} {p : Protocol} {i : Nat}

theorem nodup_names (h : WellKept o) : (o.protocols.map Protocol.name).Nodup := by
  rw [List.Nodup, List.pairwise_map]
  exact h.nodup.imp_of_mem fun hp hq hne hname =>
    hne (Protocol.eq_of_name (h.registered _ hp) (h.registered _ hq) hname)

theorem addProtocol_eq_error_iff (h : WellKept o) (hp : p ∈ Protocol.registry) {e : LinkError} :
    o.addProtocol p = .error e ↔
      e = .tooManyProtocols ∧ o.protocols.length = maxProtocols ∧ p ∉ o.protocols := by
  rw [addProtocol]
  split
  · rename_i hany
    have hmem : p ∈ o.protocols := (any_same_iff h.registered hp).mp hany
    exact ⟨nofun, fun hfull => (hfull.2.2 hmem).elim⟩
  · rename_i hnone
    have hnew : p ∉ o.protocols := fun hmem => hnone ((any_same_iff h.registered hp).mpr hmem)
    split
    · rename_i hfull
      have hlength : o.protocols.length = maxProtocols := Nat.le_antisymm h.few hfull
      refine ⟨?_, fun he => he.1 ▸ rfl⟩
      rintro ⟨⟩
      exact ⟨rfl, hlength, hnew⟩
    · rename_i hroom
      exact ⟨nofun, fun hfull => (hroom (Nat.le_of_eq hfull.2.1.symm)).elim⟩

/-- The place of a protocol is found by any text that it alone goes by. -/
theorem protocolIndex?_of_only (h : WellKept o) (hp : o.protocolAt? i = some p) {name : String}
    (hgoes : o.goesBy p name = true)
    (honly : ∀ q ∈ o.protocols, o.goesBy q name = true → q = p) :
    o.protocolIndex? name = some i := by
  obtain ⟨hi, hat⟩ := List.getElem?_eq_some_iff.mp hp
  rw [protocolIndex?, List.findIdx?_eq_some_iff_getElem]
  refine ⟨hi, hat ▸ hgoes, fun j hj hgoesj => ?_⟩
  have hj' : j < o.protocols.length := Nat.lt_trans hj hi
  have hne : o.protocols[j] ≠ o.protocols[i] := List.pairwise_iff_getElem.mp h.nodup j i hj' hi hj
  exact hne ((honly _ (List.getElem_mem hj') hgoesj).trans hat.symm)

theorem protocolIndex?_name (h : WellKept o) (hp : o.protocolAt? i = some p) :
    o.protocolIndex? p.name = some i := by
  have hmem : p ∈ o.protocols := List.mem_of_getElem? hp
  refine h.protocolIndex?_of_only hp (by simp [goesBy]) fun q hq hgoes => ?_
  rw [goesBy, Bool.or_eq_true, Bool.and_eq_true, beq_iff_eq, beq_iff_eq] at hgoes
  rcases hgoes with hname | ⟨-, halias⟩
  · exact Protocol.eq_of_name (h.registered q hq) (h.registered p hmem) hname
  · exact ((alias_unambiguous (h.registered q hq) (h.registered p hmem) halias).1 rfl).elim

theorem protocolIndex?_alias (h : WellKept o) (hp : o.protocolAt? i = some p) {a : String}
    (ha : p.alias? = some a) : o.protocolIndex? a = some i ↔ o.allowAliases = true := by
  have hmem : p ∈ o.protocols := List.mem_of_getElem? hp
  have hgoes : ∀ q ∈ o.protocols, o.goesBy q a = true →
      o.allowAliases = true ∧ q.alias? = some a := by
    intro q hq hq'
    rw [goesBy, Bool.or_eq_true, Bool.and_eq_true, beq_iff_eq, beq_iff_eq] at hq'
    exact hq'.resolve_left (alias_unambiguous (h.registered p hmem) (h.registered q hq) ha).1
  constructor
  · intro hindex
    obtain ⟨hi, hfound, -⟩ := List.findIdx?_eq_some_iff_getElem.mp hindex
    exact (hgoes _ (List.getElem_mem hi) hfound).1
  · intro hallow
    refine h.protocolIndex?_of_only hp (by simp [goesBy, hallow, ha]) fun q hq hq' => ?_
    exact (alias_unambiguous (h.registered p hmem) (h.registered q hq) ha).2 (hgoes q hq hq').2

end WellKept

/-- A call that fails leaves the options as they were. -/
theorem after_of_error {o : LinkOptions} {call : Call} {e : LinkError}
    (h : (o.perform call).2 = .error e) : o.after call = o := by
  have hsettle : ∀ result : Except LinkError LinkOptions,
      (o.settle result).2 = .error e → (o.settle result).1 = o := by
    intro result hresult
    cases result with
    | ok o' => cases hresult
    | error e' => rfl
  cases call with
  | setLocalPrivateKey secret => exact hsettle _ h
  | setPresharedKey bytes => exact hsettle _ h
  | addProtocol p => exact hsettle _ h
  | _ => cases h

/-- What holds of link options after any calls, successful or not, copies of other options among
them. There are at most four protocols, all of different names: those put on the list and not taken
off since, in the order of the calls that have put them there; a copy has the list of what has been
copied. One more protocol is refused if and only if the list is full and lacks it, and a call that
fails changes nothing. The place of a protocol is found under its name, and under its alias if and
only if aliases are allowed. Both buffer sizes are in range, and so they are advertised as they
are. -/
theorem Made.representation {o : LinkOptions} {past : List Call} (h : Made o past) :
    (o.protocols.length ≤ 4 ∧ (o.protocols.map Protocol.name).Nodup) ∧
      ((∀ p, p ∈ o.protocols ↔ ∃ n, Inserted past n p) ∧
        o.protocols.Pairwise fun p q => ∀ n m, Inserted past n p → Inserted past m q → n < m) ∧
      (∀ other, (o.after (.copyFrom other)).protocols = other.protocols) ∧
      (∀ p ∈ Protocol.registry, ∀ e, o.addProtocol p = .error e ↔
        e = .tooManyProtocols ∧ o.protocols.length = 4 ∧ p ∉ o.protocols) ∧
      (∀ call e, (o.perform call).2 = .error e → o.after call = o) ∧
      (∀ i p, o.protocolAt? i = some p →
        o.protocolIndex? p.name = some i ∧
          ∀ a, p.alias? = some a → (o.protocolIndex? a = some i ↔ o.allowAliases = true)) ∧
      (128 ≤ o.sendBufferSize ∧ o.sendBufferSize ≤ 2048) ∧
      (128 ≤ o.receiveBufferSize ∧ o.receiveBufferSize ≤ 2048) ∧
      o.transportOptions.maxSendLength.map UInt32.toNat = some o.sendBufferSize ∧
      o.transportOptions.maxReceiveLength.map UInt32.toNat = some o.receiveBufferSize := by
  have hwell : WellKept o := h.wellKept
  have hordered : Ordered past := h.ordered
  refine ⟨⟨hwell.few, hwell.nodup_names⟩, ?_, fun other => rfl,
    fun p hp e => hwell.addProtocol_eq_error_iff hp, fun call e he => after_of_error he,
    fun i p hp => ⟨hwell.protocolIndex?_name hp, fun a ha => hwell.protocolIndex?_alias hp ha⟩,
    hwell.sendSize, hwell.receiveSize, hwell.sendSize.advertised?, hwell.receiveSize.advertised?⟩
  rw [h.replay]
  exact ⟨hordered.inserted, hordered.order⟩

/-- A protocol taken off and added again comes last, also in a copy. -/
theorem Made.representation_readded :
    let ik := Protocol.ikAesGcmSha256
    let xx := Protocol.xxChaChaPolySha256
    let past := [Call.addProtocol ik, .addProtocol xx, .removeProtocol ik, .addProtocol ik,
      .setSendBufferSize 10]
    let o := (new.after .clear).after (.copyFrom (new.afterAll past))
    Made o past ∧ o.protocols = [xx, ik] ∧ (∃ n, Inserted past n ik) ∧
      (∀ n m, Inserted past n xx → Inserted past m ik → n < m) ∧
      o.protocolIndex? "2" = some 0 ∧
      o.transportOptions.maxSendLength.map UInt32.toNat = some 128 := by
  intro ik xx past o
  have hik : (Call.addProtocol ik).Plain := by rw [Call.Plain]; decide
  have hxx : (Call.addProtocol xx).Plain := by rw [Call.Plain]; decide
  have hoff : (Call.removeProtocol ik).Plain := hik
  have hsize : (Call.setSendBufferSize 10).Plain := trivial
  have hcleared : Made (new.after .clear) [.clear] := .call .fresh trivial
  have hmade : Made o past :=
    .copied hcleared (((((Made.fresh.call hik).call hxx).call hoff).call hik).call hsize)
  have hlist : o.protocols = [xx, ik] := by decide
  obtain ⟨-, ⟨hinserted, horder⟩, -, -, -, hindex, -, -, hsend, -⟩ := hmade.representation
  rw [hlist] at hinserted horder
  exact ⟨hmade, hlist, (hinserted ik).mp (by simp), (List.pairwise_cons.mp horder).1 ik (by simp),
    ((hindex 0 xx (by decide)).2 "2" rfl).mpr rfl, hsend⟩

end NoiseChannel.LinkOptions
