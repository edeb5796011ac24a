import Ligase.Client.Request
import Ligase.Room.Replay

/-!
# Rooms read back from the cache

A room state is written to the cache as its flags and events. Reading it back enters the events
again, ordered by their numbers, in a state that has only the flags and the description.

* `Reloadable`: every event passes the checks of a received event, no invite by address would be
  used up again, and the time line of each domain ends with an event that is replayed.
* **`reload_same_iff`**: the state that is read back is the same.
-/

namespace Ligase.Room

open Lib Auth Client RoomServerState List Function Option

/-! ## Writing and reading -/

/-- The cached form of a state. The count of members of each domain is written and not read
again. -/
structure CachedState where
  isEncrypted : Bool
  isFed : Bool
  events : Holdings
  domains : String → Option Int

def serialize (t : TimedState) : CachedState where
  isEncrypted := t.rs.isEncrypted
  isFed := t.rs.isFed
  events := t.rs.holdings
  domains d := (t.domainTl d).map fun _ => t.rs.memberCnt d

def replayedSettings : List Setting :=
  [.creator, .joinRule, .historyVisibility, .visibility, .name, .power, .topic, .canonicalAlias,
    .aliases, .avatar, .pin, .guestAccess]

/-- The state before the replay: the slots that are replayed have been cleared. -/
def CachedState.start (c : CachedState) : TimedState where
  rs := { init with
    isEncrypted := c.isEncrypted
    isFed := c.isFed
    desc := c.events.setting .desc }
  domainTl := fun _ => none

section
variable (eventNID : Event → Int) (origin : Event → String) (localDomains : List String)

def parseCacheRoomState (c : CachedState) (S : SortBy eventNID) (r : Ranges c.events) :
    Option TimedState :=
  run (fun t ev => t.onEvent eventNID localDomains true ev) c.start
    (S.sort (eventsAt replayedSettings r))

/-- `getRoomStateFromCache`: decoding an event checks its fields as for one that is received. -/
def getRoomStateFromCache (c : CachedState) (S : SortBy eventNID) (r : Ranges c.events) :
    Option TimedState :=
  if ∀ e ∈ eventsAt (.desc :: replayedSettings) r, checkFields e (origin e) = true then
    parseCacheRoomState eventNID localDomains c S r
  else none

end

structure SameState (t t' : TimedState) : Prop where
  setting : ∀ s, t'.rs.setting s = t.rs.setting s
  member : ∀ m user, t'.rs.map m user = t.rs.map m user
  thirdInvite : ∀ k, t'.rs.thirdInvite k = t.rs.thirdInvite k
  memberCnt : ∀ d, t'.rs.memberCnt d = t.rs.memberCnt d
  isDirect : t'.rs.isDirect = t.rs.isDirect
  shown : ∀ (q : Range t.domainTl) (q' : Range t'.domainTl),
    (getLastState q').Perm (getLastState q) ∧ calcToken q' = calcToken q

variable {eventNID : Event → Int} {origin : Event → String} {localDomains : List String}
  {rs : RoomServerState} {t t' : TimedState} {ev e : Event} {p q : Place}

/-! ## A state and what is read back -/

def Replayed (rs : RoomServerState) (e : Event) : Prop :=
  ∃ p, p ≠ .setting .desc ∧ rs.held p = some e

theorem mem_replayedSettings (s : Setting) : s ∈ replayedSettings ↔ s ≠ .desc := by
  cases s <;> decide

theorem mem_replayed {r : Ranges rs.holdings} :
    e ∈ eventsAt replayedSettings r ↔ Replayed rs e := by
  rw [mem_eventsAt]
  simp only [get_holdings, mem_replayedSettings, Replayed]
  refine exists_congr fun p => ⟨fun ⟨h, hp⟩ => ⟨fun hd => hp .desc hd rfl, h⟩,
    fun ⟨hp, h⟩ => ⟨h, fun s hs hd => hp (hd ▸ hs)⟩⟩

/-- The events that reading a state back replays, in the order of the replay. -/
abbrev inOrder (S : SortBy eventNID) (r : Ranges rs.holdings) : List Event :=
  S.sort (eventsAt replayedSettings r)

theorem mem_inOrder {S : SortBy eventNID} {r : Ranges rs.holdings} :
    e ∈ inOrder S r ↔ Replayed rs e :=
  (S.perm _).mem_iff.trans mem_replayed

theorem nodup_inOrder (hrs : Filed rs) (S : SortBy eventNID) (r : Ranges rs.holdings) :
    (inOrder S r).Nodup :=
  (S.perm _).nodup_iff.mpr (nodup_eventsAt hrs (by decide) r)

theorem held_start (t : TimedState) (p : Place) :
    (serialize t).start.rs.held p = if p = .setting .desc then t.rs.desc else none := by
  rcases p with ⟨⟨⟩⟩ | ⟨⟨⟩, _⟩ | _ <;> rfl

theorem slotOf_injOn (hrs : Filed rs) (hmap : rs.Mapped) {a b : Event} (ha : Replayed rs a)
    (hb : Replayed rs b) (h : slotOf a = slotOf b) : a = b := by
  obtain ⟨p, -, hp⟩ := ha
  obtain ⟨q, -, hq⟩ := hb
  rw [slotOf_of_placeOf (hrs.place p a hp), slotOf_of_placeOf (hrs.place q b hq),
    some.injEq] at h
  obtain rfl : p = q := by
    cases p <;> cases q <;> cases h
    case member m user m' =>
      rw [hmap.one user m m' (isSome_iff_exists.mpr ⟨a, hp⟩)
        (isSome_iff_exists.mpr ⟨b, hq⟩)]
    all_goals rfl
  exact some.inj (hp.symm.trans hq)

theorem ready_start (hrs : Filed t.rs) (hmap : t.rs.Mapped) (he : Replayed t.rs e) :
    ∃ p, Ready (serialize t).start.rs e p := by
  obtain ⟨p, hne, hp⟩ := he
  refine ⟨p, hrs.place p e hp, hrs.sender p e hp, ?_, slot_eq_none.mpr fun q hq => ?_⟩
  · cases p with
    | setting s => trivial
    | thirdInvite k => trivial
    | member m user =>
      obtain ⟨c, hc⟩ := hmap.domain user m (isSome_iff_exists.mpr ⟨e, hp⟩)
      exact isSome_iff_exists.mpr ⟨c, hc⟩
  · rw [held_start, if_neg]
    rintro rfl
    cases p <;> cases hq
    exact hne rfl

theorem regular_start (c : CachedState) : Regular c.start.rs :=
  .of_no_member (fun m _ => by cases m <;> rfl) (fun _ => rfl) rfl

theorem Regular.run {evs : List Event} (hreg : Regular t.rs)
    (hrun : run (fun t ev => t.onEvent eventNID localDomains true ev) t evs = some t') :
    Regular t'.rs :=
  run_preserves (I := fun t : TimedState => Regular t.rs)
    (fun h hstep => h.onEvent (TimedState.onEvent_eq_some hstep).1) hreg hrun

theorem parseCacheRoomState_spec (hrs : Filed t.rs) (hmap : t.rs.Mapped) (S : SortBy eventNID)
    (r : Ranges t.rs.holdings) :
    ∃ t', parseCacheRoomState eventNID localDomains (serialize t) S r = some t' ∧ Regular t'.rs ∧
      (∀ q, t'.rs.held q = (inOrder S r).foldl (effect q) ((serialize t).start.rs.held q)) ∧
      ∀ d n, (t'.domainTl d).map Feeds.upper = some n ↔ Ends eventNID (Replayed t.rs) d n := by
  have hstart := regular_start (serialize t)
  obtain ⟨t', hrun, hheld, htl⟩ := @replay eventNID localDomains (serialize t).start
    (inOrder S r) hstart.mapped (fun e he => ready_start hrs hmap (mem_inOrder.mp he))
    ((nodup_inOrder hrs S r).imp_of_mem fun ha hb hne h =>
      hne (slotOf_injOn hrs hmap (mem_inOrder.mp ha) (mem_inOrder.mp hb) h))
  refine ⟨t', hrun, hstart.run hrun, hheld, fun d n => ?_⟩
  have hs : ∀ e ∈ inOrder S r, (senderDomain e).isSome = true := by
    intro e he
    obtain ⟨p, -, hp⟩ := mem_inOrder.mp he
    rw [senderDomain, isSome_map]
    exact hrs.sender p e hp
  have hbounds := bounds_replay hs (S.sorted _) d
  rw [show (· ∈ inOrder S r) = Replayed t.rs from funext fun e => propext mem_inOrder] at hbounds
  rw [htl]
  exact hbounds.ends_iff n

structure Reloadable (eventNID : Event → Int) (origin : Event → String) (t : TimedState) :
    Prop where
  checked : ∀ p e, t.rs.held p = some e → checkFields e (origin e) = true
  invites : ∀ k e, t.rs.thirdInvite k = some e → ∀ m e', m ≠ .invite →
    t.rs.map m k = some e' → eventNID e' < eventNID e
  ended : ∀ d f, t.domainTl d = some f → Ends eventNID (Replayed t.rs) d f.upper

theorem usesUp_eq_true (h : usesUp ev q = true) :
    ∃ k m, q = .thirdInvite k ∧ m ≠ .invite ∧ placeOf ev = some (.member m k) := by
  cases q with
  | thirdInvite k =>
    rw [usesUp, Bool.or_eq_true, decide_eq_true_eq, decide_eq_true_eq] at h
    rcases h with h | h
    · exact ⟨k, .join, rfl, by decide, h⟩
    · exact ⟨k, .leave, rfl, by decide, h⟩
  | setting s => cases h
  | member m user => cases h

theorem held_replay (hrs : Filed t.rs)
    (hinvites : ∀ k e, t.rs.thirdInvite k = some e → ∀ m e', m ≠ .invite →
      t.rs.map m k = some e' → eventNID e' < eventNID e)
    (S : SortBy eventNID) (r : Ranges t.rs.holdings) (q : Place) :
    (inOrder S r).foldl (effect q) ((serialize t).start.rs.held q) = t.rs.held q := by
  have hplace : ∀ e ∈ inOrder S r, ∀ p, placeOf e = some p →
      p ≠ .setting .desc ∧ t.rs.held p = some e := by
    intro e he p hp
    obtain ⟨p', hne, hp'⟩ := mem_inOrder.mp he
    obtain rfl := some.inj ((hrs.place p' e hp').symm.trans hp)
    exact ⟨hne, hp'⟩
  rw [held_start]
  split_ifs with hq
  · subst hq
    refine foldl_effect_of_untouched (fun e he => ⟨fun hp => (hplace e he _ hp).1 rfl, rfl⟩) _
  · cases hheld : t.rs.held q with
    | none =>
      refine foldl_effect_none fun e he hp => ?_
      cases hheld.symm.trans (hplace e he q hp).2
    | some e =>
      have hnodup := nodup_inOrder hrs S r
      obtain ⟨l₁, l₂, hl⟩ := append_of_mem (mem_inOrder.mpr ⟨q, hq, hheld⟩)
      have hsorted : (inOrder S r).Pairwise _ := S.sorted _
      rw [hl] at hplace hnodup hsorted ⊢
      have hafter : ∀ e' ∈ l₂, placeOf e' ≠ some q ∧ usesUp e' q = false := by
        intro e' he'
        have hin : e' ∈ l₁ ++ e :: l₂ := mem_append_right _ (mem_cons_of_mem e he')
        have hcons := (pairwise_append.mp hsorted).2.1
        refine ⟨fun hp => ?_, Bool.eq_false_iff.mpr fun hu => ?_⟩
        · obtain rfl := some.inj (hheld.symm.trans (hplace e' hin q hp).2)
          exact (nodup_cons.mp (nodup_append.mp hnodup).2.1).1 he'
        · obtain ⟨k, m, rfl, hm, hp⟩ := usesUp_eq_true hu
          have hlt := hinvites k e hheld m e' hm (hplace e' hin _ hp).2
          have hle := (pairwise_cons.mp hcons).1 e' he'
          omega
      rw [foldl_effect_last hafter, effect, if_pos (hrs.place q e hheld)]

theorem Ends.isSome (hseen : Seen t) {d : String} {n : Int}
    (h : Ends eventNID (Replayed t.rs) d n) : (t.domainTl d).isSome = true := by
  rcases h with ⟨⟨e, ⟨p, -, hp⟩, hd, -⟩, -⟩ | ⟨-, -, e, ⟨p, -, hp⟩, hd⟩
  · exact hseen.sender p e hp d hd
  · exact hseen.target p e hp d hd

theorem shown_iff (hseen : Seen t)
    (htl : ∀ d n, (t'.domainTl d).map Feeds.upper = some n ↔ Ends eventNID (Replayed t.rs) d n) :
    (∀ (q : Range t.domainTl) (q' : Range t'.domainTl),
      (getLastState q').Perm (getLastState q) ∧ calcToken q' = calcToken q) ↔
      ∀ d f, t.domainTl d = some f → Ends eventNID (Replayed t.rs) d f.upper := by
  have hsub : ∀ d, (t'.domainTl d).isSome = true → (t.domainTl d).isSome = true := by
    intro d hd
    obtain ⟨f, hf⟩ := isSome_iff_exists.mp hd
    exact ((htl d f.upper).mp (by rw [hf]; rfl)).isSome hseen
  rw [sameBounds_iff hseen.finite hsub]
  constructor
  · intro h d f hf
    exact (htl d f.upper).mp (by rw [h, hf]; rfl)
  · intro h d
    cases hd : t.domainTl d with
    | some f => exact (htl d f.upper).mpr (h d f hd)
    | none =>
      have hno : t'.domainTl d = none := by
        rw [← not_isSome_iff_eq_none]
        exact fun hs => absurd (hsub d hs) (by rw [hd]; exact nofun)
      rw [hno]

theorem sameState_iff (hreg : Regular t.rs) (hreg' : Regular t'.rs) :
    SameState t t' ↔ (∀ q, t'.rs.held q = t.rs.held q) ∧
      ∀ (q : Range t.domainTl) (q' : Range t'.domainTl),
        (getLastState q').Perm (getLastState q) ∧ calcToken q' = calcToken q := by
  constructor
  · intro h
    refine ⟨fun q => ?_, h.shown⟩
    cases q with
    | setting s => exact h.setting s
    | member m user => exact h.member m user
    | thirdInvite k => exact h.thirdInvite k
  · rintro ⟨hheld, hshown⟩
    have hjoined : ∀ d, joined t'.rs d = joined t.rs d := by
      intro d
      unfold joined
      rw [show t'.rs.join = t.rs.join from funext fun user => hheld (.member .join user)]
    refine ⟨fun s => hheld (.setting s), fun m user => hheld (.member m user),
      fun k => hheld (.thirdInvite k), fun d => ?_, ?_, hshown⟩
    · rw [(hreg'.counted d).2, (hreg.counted d).2, hjoined]
    · rw [hreg'.flagged, hreg.flagged, show t'.rs.creator = t.rs.creator from
        hheld (.setting .creator)]

theorem checked_iff {r : Ranges (serialize t).events} :
    (∀ e ∈ eventsAt (.desc :: replayedSettings) r, checkFields e (origin e) = true) ↔
      ∀ p e, t.rs.held p = some e → checkFields e (origin e) = true := by
  have hall : ∀ s : Setting, s ∈ Setting.desc :: replayedSettings := fun s => by
    cases s <;> decide
  have hget : ∀ p, (serialize t).events.get p = t.rs.held p := get_holdings
  simp only [mem_eventsAt, hget, hall, implies_true, and_true]
  exact ⟨fun h p e hp => h e ⟨p, hp⟩, fun h e ⟨p, hp⟩ => h p e hp⟩

theorem exists_used_up (hrs : Filed t.rs) {k : String} {m : MemberMap} {e' : Event}
    (he : t.rs.thirdInvite k = some e) (hm : m ≠ .invite) (he' : t.rs.map m k = some e')
    (hle : eventNID e ≤ eventNID e') (r : Ranges t.rs.holdings) :
    ∃ S : SortBy eventNID, (inOrder S r).foldl (effect (.thirdInvite k))
      ((serialize t).start.rs.held (.thirdInvite k)) = none := by
  have hp : placeOf e = some (.thirdInvite k) := hrs.place (.thirdInvite k) e he
  have hp' : placeOf e' = some (.member m k) := hrs.place (.member m k) e' he'
  have hne : e ≠ e' := by
    rintro rfl
    cases hp.symm.trans hp'
  have hin' : e' ∈ eventsAt replayedSettings r := mem_replayed.mpr ⟨.member m k, by simp, he'⟩
  obtain ⟨S, l₁, l₂, hl, hbefore⟩ : ∃ S : SortBy eventNID, ∃ l₁ l₂,
    inOrder S r = _ ∧ _ := SortBy.exists_last hin'
  have hin : e ∈ l₁ := hbefore e (mem_replayed.mpr ⟨.thirdInvite k, by simp, he⟩) hne hle
  have hnodup := nodup_inOrder hrs S r
  have hmem : ∀ b ∈ inOrder S r, Replayed t.rs b := fun b => mem_inOrder.mp
  refine ⟨S, ?_⟩
  rw [hl] at hnodup hmem ⊢
  have huse : ∀ cur, effect (.thirdInvite k) cur e' = none := by
    intro cur
    have hu : usesUp e' (.thirdInvite k) = true := by
      rw [usesUp, hp']
      cases m with
      | join => simp
      | leave => simp
      | invite => exact absurd rfl hm
    rw [effect, hp', if_neg (by simp), if_pos hu]
  rw [foldl_append, foldl_cons, huse]
  refine foldl_effect_none fun b hb hpb => ?_
  obtain ⟨p, -, hb'⟩ := hmem b (mem_append_right _ (mem_cons_of_mem e' hb))
  obtain rfl := some.inj ((hrs.place p b hb').symm.trans hpb)
  obtain rfl := some.inj (he.symm.trans hb')
  exact (nodup_append.mp hnodup).2.2 e hin e (mem_cons_of_mem e' hb) rfl

theorem getRoomStateFromCache_spec (h : t.Reachable eventNID localDomains) (S : SortBy eventNID)
    (r : Ranges (serialize t).events) :
    ∃ t', getRoomStateFromCache eventNID origin localDomains (serialize t) S r =
        (if ∀ e ∈ eventsAt (.desc :: replayedSettings) r, checkFields e (origin e) = true
          then some t' else none) ∧
      (SameState t t' ↔ (∀ q, (inOrder S r).foldl (effect q) ((serialize t).start.rs.held q) =
          t.rs.held q) ∧
        ∀ d f, t.domainTl d = some f → Ends eventNID (Replayed t.rs) d f.upper) := by
  have hreg := h.regular
  obtain ⟨t', hparse, hreg', hheld, htl⟩ :=
    parseCacheRoomState_spec (filed_of_reachable h.state) hreg.mapped S r
  refine ⟨t', by rw [getRoomStateFromCache, hparse], ?_⟩
  rw [sameState_iff hreg hreg', shown_iff h.seen htl]
  simp only [hheld]

/-- **Reading a room back.** The result has the same events at all places, the same counts, flag,
snapshot and token if and only if the state is reloadable. -/
theorem reload_same_iff (h : t.Reachable eventNID localDomains) :
    (∀ (S : SortBy eventNID) (r : Ranges (serialize t).events), ∃ t',
      getRoomStateFromCache eventNID origin localDomains (serialize t) S r = some t' ∧
        SameState t t') ↔ Reloadable eventNID origin t := by
  have hrs := filed_of_reachable h.state
  constructor
  · intro hsame
    obtain ⟨r⟩ : Nonempty (Ranges (serialize t).events) := hrs.nonempty_ranges
    have hchecked : ∀ p e, t.rs.held p = some e → checkFields e (origin e) = true := by
      by_contra hno
      obtain ⟨t', heq, -⟩ := getRoomStateFromCache_spec h (.insertion eventNID) r
      obtain ⟨t₂, hsome, -⟩ := hsame (.insertion eventNID) r
      rw [heq, if_neg fun hall => hno (checked_iff.mp hall)] at hsome
      cases hsome
    have hback : ∀ S : SortBy eventNID, (∀ q, (inOrder S r).foldl (effect q)
        ((serialize t).start.rs.held q) = t.rs.held q) ∧
        ∀ d f, t.domainTl d = some f → Ends eventNID (Replayed t.rs) d f.upper := by
      intro S
      obtain ⟨t', heq, hiff⟩ := getRoomStateFromCache_spec h S r
      obtain ⟨t₂, hsome, hst⟩ := hsame S r
      rw [heq, if_pos (checked_iff.mpr hchecked)] at hsome
      obtain rfl := some.inj hsome
      exact hiff.mp hst
    refine ⟨hchecked, fun k e he m e' hm he' => ?_, (hback (.insertion eventNID)).2⟩
    by_contra hlt
    obtain ⟨S, hnone⟩ := exists_used_up hrs he hm he' (Int.not_lt.mp hlt) r
    have hsome := (hback S).1 (.thirdInvite k)
    cases (hnone.symm.trans hsome).trans he
  · intro hre S r
    obtain ⟨t', heq, hiff⟩ := getRoomStateFromCache_spec h S r
    refine ⟨t', ?_, hiff.mpr ⟨held_replay hrs hre.invites S r, hre.ended⟩⟩
    rw [heq, if_pos (checked_iff.mpr hre.checked)]

/-- The states that events, and reading back whatever the cache has, lead to. -/
inductive Kept (eventNID : Event → Int) (origin : Event → String) (localDomains : List String) :
    TimedState → Prop
  | init : Kept eventNID origin localDomains .init
  | onEvent {t t' : TimedState} {recover : Bool} {ev : Event} :
    Kept eventNID origin localDomains t → t.onEvent eventNID localDomains recover ev = some t' →
      Kept eventNID origin localDomains t'
  | reload {t' : TimedState} (c : CachedState) (S : SortBy eventNID) (r : Ranges c.events) :
    getRoomStateFromCache eventNID origin localDomains c S r = some t' →
      Kept eventNID origin localDomains t'

theorem Kept.regular (h : Kept eventNID origin localDomains t) : Regular t.rs := by
  induction h with
  | init => exact .of_no_member (fun m _ => by cases m <;> rfl) (fun _ => rfl) rfl
  | onEvent _ hev ih => exact ih.onEvent (TimedState.onEvent_eq_some hev).1
  | reload c S r hget =>
    rw [getRoomStateFromCache] at hget
    split_ifs at hget
    exact (regular_start c).run hget

/-- **The count of a domain** is the number of its users that have joined. -/
theorem memberCnt_eq_ncard (h : Kept eventNID origin localDomains t) (d : String) :
    (joined t.rs d).Finite ∧ t.rs.memberCnt d = (joined t.rs d).ncard ∧ 0 ≤ t.rs.memberCnt d := by
  obtain ⟨hfin, hcnt⟩ := h.regular.counted d
  exact ⟨hfin, hcnt, hcnt ▸ Int.natCast_nonneg _⟩

def creation : Event := event "$1:x" "@a:x" MRoomCreate "" [("creator", "@a:x")]
def firstJoin : Event := memberEvent "$2:x" "@a:x" "@a:x" "join"
def encryption : Event :=
  event "$3:x" "@a:x" "m.room.encryption" "" [("algorithm", "m.megolm.v1.aes-sha2")]

def cachedNID (ev : Event) : Int :=
  if ev.eventID = "$1:x" then 1 else if ev.eventID = "$2:x" then 2 else 3

def aliceTimed (evs : List Event) : TimedState :=
  (run (fun t a => t.onEvent cachedNID ["x"] a.1 a.2) .init (evs.map (Prod.mk false))).getD .init

theorem memberCnt_eq_ncard_alice : (aliceTimed [creation, firstJoin]).rs.memberCnt "x" = 1 ∧
    (joined (aliceTimed [creation, firstJoin]).rs "x").ncard = 1 := by
  have hcnt : (aliceTimed [creation, firstJoin]).rs.memberCnt "x" = 1 := by decide
  have h₁ : TimedState.init.onEvent cachedNID ["x"] false creation =
    some (aliceTimed [creation]) := rfl
  have h₂ : (aliceTimed [creation]).onEvent cachedNID ["x"] false firstJoin =
    some (aliceTimed [creation, firstJoin]) := rfl
  have hkept : Kept cachedNID (fun _ => "x") ["x"] (aliceTimed [creation, firstJoin]) :=
    .onEvent (.onEvent .init h₁) h₂
  obtain ⟨-, heq, -⟩ := memberCnt_eq_ncard hkept "x"
  exact ⟨hcnt, by exact_mod_cast heq.symm.trans hcnt⟩

section
variable {evs : List Event} (hevs : evs ⊆ [creation, firstJoin, encryption])
  (hrun : run (fun t a => t.onEvent cachedNID ["x"] a.1 a.2) .init (evs.map (Prod.mk false)) =
    some t)
include hevs hrun

theorem eq_of_held (hp : t.rs.held p = some e) : e = creation ∨ e = firstJoin := by
  have hreach : t.Reachable cachedNID ["x"] := ⟨_, hrun⟩
  have hmem := TimedState.mem_of_held hrun hp
  rw [List.map_map, List.mem_map] at hmem
  obtain ⟨e', he', rfl⟩ := hmem
  have hplace := (filed_of_reachable hreach.state).place p e' hp
  have hcase := hevs he'
  simp only [mem_cons, not_mem_nil, or_false] at hcase
  rcases hcase with rfl | rfl | rfl
  · exact .inl rfl
  · exact .inr rfl
  · cases hplace

theorem ends_alice (hjoin : t.rs.join "@a:x" = some firstJoin) :
    Ends cachedNID (Replayed t.rs) "x" 2 := by
  refine .inl ⟨⟨firstJoin, ⟨.member .join "@a:x", nofun, hjoin⟩, rfl, rfl⟩, ?_⟩
  rintro n ⟨e, ⟨p, -, hp⟩, -, rfl⟩
  rcases eq_of_held hevs hrun hp with rfl | rfl <;> decide

end

theorem domainTl_joined : (aliceTimed [creation, firstJoin]).domainTl =
    update (fun _ => none) "x" (some ⟨1, 2⟩) := by
  show update (update (update (fun _ => none) "x" (some ⟨1, 1⟩)) "x"
    (some ⟨1, 1⟩)) "x" (some (⟨1, 2⟩ : Feeds)) = _
  rw [update_idem, update_idem]

theorem domainTl_encrypted : (aliceTimed [creation, firstJoin, encryption]).domainTl =
    update (fun _ => none) "x" (some ⟨1, 3⟩) := by
  show update (aliceTimed [creation, firstJoin]).domainTl "x" (some ⟨1, 3⟩) = _
  rw [domainTl_joined, update_idem]

theorem reload_same_alice :
    (aliceTimed [creation, firstJoin]).Reachable cachedNID ["x"] ∧
    ∀ (S : SortBy cachedNID) (r : Ranges (serialize (aliceTimed [creation, firstJoin])).events),
      ∃ t', getRoomStateFromCache cachedNID (fun _ => "x") ["x"]
          (serialize (aliceTimed [creation, firstJoin])) S r = some t' ∧
        SameState (aliceTimed [creation, firstJoin]) t' := by
  have hrun : run (fun t a => t.onEvent cachedNID ["x"] a.1 a.2) .init
      ([creation, firstJoin].map (Prod.mk false)) =
        some (aliceTimed [creation, firstJoin]) := rfl
  have hevs : [creation, firstJoin] ⊆ [creation, firstJoin, encryption] := by simp
  have hreach : (aliceTimed [creation, firstJoin]).Reachable cachedNID ["x"] := ⟨_, hrun⟩
  refine ⟨hreach, (reload_same_iff hreach).mpr
    ⟨fun p e hp => ?_, fun k e he => ?_, fun d f hf => ?_⟩⟩
  · rcases eq_of_held hevs hrun hp with rfl | rfl <;> decide
  · have hplace := (filed_of_reachable hreach.state).place (.thirdInvite k) e he
    rcases eq_of_held (p := .thirdInvite k) hevs hrun he with rfl | rfl <;> cases hplace
  · rw [domainTl_joined, update_apply] at hf
    split_ifs at hf with hd
    cases hf
    exact hd ▸ ends_alice hevs hrun rfl

/-- The encryption is in no slot, so reading the room back forgets its number. -/
theorem encryption_forgotten :
    run (step env₀ ["x"] false) init [creation, firstJoin, encryption] =
        some (aliceTimed [creation, firstJoin, encryption]).rs ∧
      (aliceTimed [creation, firstJoin, encryption]).Reachable cachedNID ["x"] ∧
      ∀ (S : SortBy cachedNID)
        (r : Ranges (serialize (aliceTimed [creation, firstJoin, encryption])).events),
        ∃ t', getRoomStateFromCache cachedNID (fun _ => "x") ["x"]
            (serialize (aliceTimed [creation, firstJoin, encryption])) S r = some t' ∧
          (∀ q : Range (aliceTimed [creation, firstJoin, encryption]).domainTl,
            getLastState q = [3] ∧ calcToken q = "x:3") ∧
          ∀ q' : Range t'.domainTl, getLastState q' = [2] ∧ calcToken q' = "x:2" := by
  have hrun : run (fun t a => t.onEvent cachedNID ["x"] a.1 a.2) .init
      ([creation, firstJoin, encryption].map (Prod.mk false)) =
        some (aliceTimed [creation, firstJoin, encryption]) := rfl
  have hreach : (aliceTimed [creation, firstJoin, encryption]).Reachable cachedNID ["x"] :=
    ⟨_, hrun⟩
  refine ⟨rfl, hreach, fun S r => ?_⟩
  obtain ⟨t', hparse, -, -, htl⟩ :=
    parseCacheRoomState_spec (filed_of_reachable hreach.state) hreach.regular.mapped S r
  refine ⟨t', ?_, fun q => ?_, fun q' => ?_⟩
  · rw [getRoomStateFromCache, if_pos (checked_iff.mpr fun p e hp => ?_)]
    · exact hparse
    · rcases eq_of_held (List.Subset.refl _) hrun hp with rfl | rfl <;> decide
  · refine shown_of_single (d := "x") (n := 3) (fun d => ?_) q
    rw [domainTl_encrypted, update_apply]
    split_ifs <;> rfl
  · refine shown_of_single (d := "x") (n := 2) (fun d => ?_) q'
    have hends := ends_alice (List.Subset.refl _) hrun rfl
    split_ifs with hd
    · exact (htl d 2).mpr (hd ▸ hends)
    · cases hf : t'.domainTl d with
      | none => rfl
      | some f =>
        have hsome := ((htl d f.upper).mp (by rw [hf]; rfl)).isSome hreach.seen
        rw [domainTl_encrypted, update_apply, if_neg hd] at hsome
        cases hsome

end Ligase.Room
