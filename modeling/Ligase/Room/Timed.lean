import Mathlib.Data.Set.Card
import Mathlib.Data.String.Basic
import Ligase.Room.AllState

/-!
# The time lines of a room

With the state the room server keeps, for each domain, the bounds of the numbers of the events that
came from it. They are what a room's snapshot and the token of its cached state are made of.

* `TimedState`: a state with its time lines; `TimedState.onEvent` enters an event.
* `Seen`: the domains of every held event have a time line.
* `Counted`: the joined members of a domain are counted.
* `sameBounds_iff`: the snapshot and the token show the upper bound of every time line.
-/

namespace Ligase.Room

open Lib Auth RoomServerState List Option Function

/-! ## Time lines -/

/-- The bounds of a time line; the entries themselves are not read. -/
structure Feeds where
  lower : Int
  upper : Int

def Feeds.empty : Feeds := ⟨0, 0⟩

/-- `Add`. A lower bound of zero is taken for that of an empty time line. -/
def Feeds.add (f : Feeds) (offset : Int) : Feeds :=
  if f.lower = 0 then ⟨offset, offset⟩
  else if offset < f.lower then { f with lower := offset }
  else if f.upper < offset then { f with upper := offset }
  else f

abbrev DomainTl := String → Option Feeds

namespace DomainTl

/-- `getDomainTL`: the time line of a domain, made if there is none. -/
def getDomainTL (tl : DomainTl) (domain : String) : Feeds := (tl domain).getD .empty

def touch (tl : DomainTl) (domain : String) : DomainTl :=
  update tl domain (some (tl.getDomainTL domain))

def addFeed (tl : DomainTl) (domain : String) (offset : Int) : DomainTl :=
  update tl domain (some ((tl.getDomainTL domain).add offset))

end DomainTl

def senderDomain (ev : Event) : Option String := (cut ':' ev.sender).map Prod.snd

def targetDomain (ev : Event) : Option String :=
  if ev.type = MRoomMember then ev.stateKey.bind fun user => (cut ':' user).map Prod.snd else none

section
variable (eventNID : Event → Int)

/-- An event that is entered makes a time line for its target's domain and is added to its sender's.
-/
def DomainTl.entered (tl : DomainTl) (ev : Event) : DomainTl :=
  match senderDomain ev with
  | none => tl
  | some domain =>
    match targetDomain ev with
    | none => tl.addFeed domain (eventNID ev)
    | some target => (tl.touch target).addFeed domain (eventNID ev)

structure TimedState where
  rs : RoomServerState
  domainTl : DomainTl

namespace TimedState

def init : TimedState := ⟨.init, fun _ => none⟩

/-- `onEvent`, with the number of the event as its offset. -/
def onEvent (localDomains : List String) (t : TimedState) (recover : Bool) (ev : Event) :
    Option TimedState :=
  (t.rs.onEvent localDomains recover ev).map fun rs =>
    ⟨rs, if t.rs.applies localDomains ev then t.domainTl.entered eventNID ev else t.domainTl⟩

def Reachable (localDomains : List String) (t : TimedState) : Prop :=
  ∃ evs : List (Bool × Event),
    run (fun t a => t.onEvent eventNID localDomains a.1 a.2) init evs = some t

end TimedState

end

variable {eventNID : Event → Int} {localDomains : List String} {recover : Bool} {ev e : Event}
  {rs rs' : RoomServerState} {t t' : TimedState} {tl : DomainTl} {d : String} {p : Place}

theorem TimedState.onEvent_eq_some (h : t.onEvent eventNID localDomains recover ev = some t') :
    t.rs.onEvent localDomains recover ev = some t'.rs ∧ t'.domainTl =
        if t.rs.applies localDomains ev then t.domainTl.entered eventNID ev else t.domainTl := by
  obtain ⟨rs, hrs, rfl⟩ := map_eq_some_iff.mp h
  exact ⟨hrs, rfl⟩

theorem TimedState.Reachable.state (h : t.Reachable eventNID localDomains) :
    Room.Reachable localDomains t.rs := by
  obtain ⟨evs, h⟩ := h
  refine ⟨evs, ?_⟩
  have hrun : ∀ (evs : List (Bool × Event)) (s : TimedState),
      run (fun t a => t.onEvent eventNID localDomains a.1 a.2) s evs = some t →
      run (fun rs a => rs.onEvent localDomains a.1 a.2) s.rs evs = some t.rs := by
    intro evs
    induction evs with
    | nil =>
      intro s h
      cases h
      rfl
    | cons a evs ih =>
      intro s h
      obtain ⟨s', hs', h⟩ := run_cons_eq_some.mp h
      exact run_cons_eq_some.mpr ⟨s'.rs, (onEvent_eq_some hs').1, ih s' h⟩
  exact hrun evs init h

/-! ## Domains with a time line -/

theorem entered_apply (hs : (senderDomain ev).isSome = true) (d : String) :
    tl.entered eventNID ev d =
      if senderDomain ev = some d then some ((tl.getDomainTL d).add (eventNID ev))
      else if targetDomain ev = some d then some (tl.getDomainTL d) else tl d := by
  obtain ⟨s, hs⟩ := isSome_iff_exists.mp hs
  have hget : ∀ target, (tl.touch target).getDomainTL s = tl.getDomainTL s := by
    intro target
    unfold DomainTl.getDomainTL DomainTl.touch
    rw [update_apply]
    split_ifs with h
    · subst h
      rfl
    · rfl
  unfold DomainTl.entered
  rw [hs]
  cases ht : targetDomain ev with
  | none =>
    simp only [DomainTl.addFeed, update_apply, some.injEq, reduceCtorEq, if_false]
    grind
  | some target =>
    simp only [DomainTl.addFeed, hget]
    simp only [DomainTl.touch, update_apply, some.injEq]
    grind

theorem isSome_entered (hs : (senderDomain ev).isSome = true) :
    (tl.entered eventNID ev d).isSome = true ↔
      (tl d).isSome = true ∨ senderDomain ev = some d ∨ targetDomain ev = some d := by
  rw [entered_apply hs]
  split_ifs with h₁ h₂
  · simp [h₁]
  · simp [h₂]
  · simp [h₁, h₂]

/-- The domains of the senders and targets of the held events have a time line, and only some
domains have one. -/
structure Seen (t : TimedState) : Prop where
  sender : ∀ p e, t.rs.held p = some e → ∀ d, senderDomain e = some d → (t.domainTl d).isSome = true
  target : ∀ p e, t.rs.held p = some e → ∀ d, targetDomain e = some d → (t.domainTl d).isSome = true
  finite : {d | (t.domainTl d).isSome = true}.Finite

theorem isSome_senderDomain (h : rs.applies localDomains ev = true) :
    (senderDomain ev).isSome = true := by
  rw [senderDomain, isSome_map]
  exact sender_of_applies h

theorem Seen.onEvent (ht : Seen t) (h : t.onEvent eventNID localDomains recover ev = some t') :
    Seen t' := by
  obtain ⟨hrs, htl⟩ := TimedState.onEvent_eq_some h
  have hgrow : ∀ d, (t.domainTl d).isSome = true → (t'.domainTl d).isSome = true := by
    intro d hd
    rw [htl]
    split_ifs with happ
    · exact (isSome_entered (isSome_senderDomain happ)).mpr (.inl hd)
    · exact hd
  refine ⟨fun p e he d hd => ?_, fun p e he d hd => ?_, ?_⟩
  · rcases held_onEvent hrs he with ⟨rfl, -, happ⟩ | he
    · rw [htl, if_pos happ, isSome_entered (isSome_senderDomain happ)]
      exact .inr (.inl hd)
    · exact hgrow d (ht.sender p e he d hd)
  · rcases held_onEvent hrs he with ⟨rfl, -, happ⟩ | he
    · rw [htl, if_pos happ, isSome_entered (isSome_senderDomain happ)]
      exact .inr (.inr hd)
    · exact hgrow d (ht.target p e he d hd)
  · rw [htl]
    split_ifs with happ
    · have hone : ∀ o : Option String, {d | o = some d}.Finite := fun o =>
        Set.Subsingleton.finite fun a ha b hb => some.inj (Eq.trans (Eq.symm ha) hb)
      refine ((ht.finite.union (hone (senderDomain ev))).union (hone (targetDomain ev))).subset ?_
      intro d hd
      rcases (isSome_entered (isSome_senderDomain happ)).mp hd with h | h | h
      · exact .inl (.inl h)
      · exact .inl (.inr h)
      · exact .inr h
    · exact ht.finite

/-! ## The count of members -/

def joined (rs : RoomServerState) (d : String) : Set String :=
  {user | (rs.join user).isSome = true ∧ (cut ':' user).map Prod.snd = some d}

def Counted (rs : RoomServerState) : Prop :=
  ∀ d, (joined rs d).Finite ∧ rs.memberCnt d = (joined rs d).ncard

theorem Counted.of_eq (hrs : Counted rs) (hjoin : rs'.join = rs.join)
    (hcnt : rs'.memberCnt = rs.memberCnt) : Counted rs' := by
  intro d
  have hset : joined rs' d = joined rs d := by
    unfold joined
    rw [hjoin]
  rw [hset, hcnt]
  exact hrs d

theorem preMembership_eq_join (user : String) :
    rs.preMembership user = "join" ↔ (rs.join user).isSome = true := by
  unfold preMembership
  split_ifs with hj hl hi <;> simp [hj]

theorem memberCnt_onMemberEv {user : String} {q : String × String} (hc : cut ':' user = some q) :
    (rs.onMemberEv ev user).memberCnt = update rs.memberCnt q.2 (rs.memberCnt q.2 -
        (if membershipOf ev.content ≠ rs.preMembership user ∧ rs.preMembership user = "join"
          then 1 else 0) +
        if membershipOf ev.content ≠ rs.preMembership user ∧ membershipOf ev.content = "join"
          then 1 else 0) := by
  obtain ⟨_, _, _, _, h⟩ := rs.dropMember_storeMember ev user (membershipOf ev.content)
    (rs.preMembership user)
  simp only [onMemberEv, hc, h, countMember]

theorem mapOf_eq_join {membership : String} :
    mapOf membership = some .join ↔ membership = "join" := by
  unfold mapOf
  split_ifs with hj hi hl <;> simp_all

theorem join_onMemberEv (ev : Event) (hmap : rs.Mapped) {user : String} {q : String × String}
    (hc : cut ':' user = some q) (u : String) : ((rs.onMemberEv ev user).join u).isSome = true ↔
      if u = user then membershipOf ev.content = "join" else (rs.join u).isSome = true := by
  split_ifs with hu
  · subst hu
    have hmapped : (rs.onMemberEv ev u).map .join u = _ := map_onMemberEv hmap hc .join
    rw [show (rs.onMemberEv ev u).join u = _ from hmapped]
    split_ifs with h
    · exact ⟨fun _ => mapOf_eq_join.mp h.1, fun _ => rfl⟩
    · refine ⟨nofun, fun hj => absurd ⟨mapOf_eq_join.mpr hj, fun hb => ?_⟩ h⟩
      exact absurd (hj.symm.trans hb.1) (by decide)
  · rw [(sameMember_onMemberEv hu).join]

section
variable {user : String} {q : String × String}

variable (hmap : rs.Mapped) (hc : cut ':' user = some q)
include hmap hc

theorem joined_onMemberEv_of_join (hm : membershipOf ev.content = "join") :
    joined (rs.onMemberEv ev user) q.2 = insert user (joined rs q.2) := by
  have hdom : (cut ':' user).map Prod.snd = some q.2 := by rw [hc]; rfl
  ext u
  simp only [joined, Set.mem_ofPred_eq, Set.mem_insert_iff, join_onMemberEv ev hmap hc]
  by_cases hu : u = user
  · simp [hu, hm, hdom]
  · simp [hu]

theorem joined_onMemberEv_of_ne_join (hm : membershipOf ev.content ≠ "join") :
    joined (rs.onMemberEv ev user) q.2 = joined rs q.2 \ {user} := by
  ext u
  simp only [joined, Set.mem_ofPred_eq, Set.mem_sdiff, Set.mem_singleton_iff,
    join_onMemberEv ev hmap hc]
  by_cases hu : u = user
  · simp [hu, hm]
  · simp [hu]

theorem joined_onMemberEv_of_ne (hd : d ≠ q.2) :
    joined (rs.onMemberEv ev user) d = joined rs d := by
  ext u
  simp only [joined, Set.mem_ofPred_eq, join_onMemberEv ev hmap hc]
  by_cases hu : u = user
  · have hne : (cut ':' u).map Prod.snd ≠ some d := by
      rw [hu, hc]
      exact fun h => hd (some.inj h).symm
    simp [hne]
  · simp [hu]

end

theorem Counted.onMemberEv (hrs : Counted rs) (hmap : rs.Mapped) (user : String) :
    Counted (rs.onMemberEv ev user) := by
  cases hc : cut ':' user with
  | none =>
    simp only [RoomServerState.onMemberEv, hc]
    exact hrs
  | some q =>
    intro d
    obtain ⟨hfin, hcnt⟩ := hrs d
    rw [memberCnt_onMemberEv hc, update_apply]
    by_cases hd : d = q.2
    · subst hd
      have hdom : (cut ':' user).map Prod.snd = some q.2 := by rw [hc]; rfl
      have hpre : rs.preMembership user = "join" ↔ (rs.join user).isSome = true :=
        preMembership_eq_join user
      rw [if_pos rfl, hcnt]
      by_cases hm : membershipOf ev.content = "join"
      · rw [joined_onMemberEv_of_join hmap hc hm]
        refine ⟨hfin.insert user, ?_⟩
        by_cases hin : (rs.join user).isSome = true
        · rw [Set.insert_eq_of_mem (show user ∈ joined rs q.2 from ⟨hin, hdom⟩), hpre.mpr hin, hm]
          simp
        · have hne : rs.preMembership user ≠ "join" := fun h => hin (hpre.mp h)
          rw [Set.ncard_insert_of_notMem (fun h => hin h.1) hfin, hm]
          simp [hne, hne.symm]
      · rw [joined_onMemberEv_of_ne_join hmap hc hm]
        refine ⟨hfin.sdiff, ?_⟩
        by_cases hin : (rs.join user).isSome = true
        · have hmem : user ∈ joined rs q.2 := ⟨hin, hdom⟩
          rw [Set.ncard_sdiff_singleton_of_mem hmem, hpre.mpr hin,
            Nat.cast_sub (Nat.one_le_iff_ne_zero.mpr (Set.ncard_ne_zero_of_mem hmem hfin))]
          simp [hm]
        · have hne : rs.preMembership user ≠ "join" := fun h => hin (hpre.mp h)
          rw [Set.sdiff_singleton_eq_self fun h => hin h.1]
          simp [hne, hm]
    · rw [if_neg hd, joined_onMemberEv_of_ne hmap hc hd]
      exact ⟨hfin, hcnt⟩

theorem Counted.onEvent (hrs : Counted rs) (hmap : rs.Mapped)
    (h : rs.onEvent localDomains recover ev = some rs') : Counted rs' := by
  rcases onEvent_eq_some h with ⟨-, ext, rfl⟩ | ⟨-, ext, rfl⟩
  · exact hrs.of_eq rfl rfl
  · have hext : Counted { rs with ext } := hrs.of_eq rfl rfl
    by_cases hm : ev.type = MRoomMember
    · rw [onEventUpdate_member hm]
      exact hext.onMemberEv (hmap.of_same fun _ => ⟨rfl, rfl, rfl⟩) _
    · refine hext.of_eq ?_ ?_
      · exact funext fun user => (sameMember_onEventUpdate fun h => hm h.1).join
      · unfold onEventUpdate
        split
        case h_2 hm' => exact absurd hm' hm
        all_goals rfl

theorem counted_of_no_join (hjoin : ∀ user, rs.join user = none) (hcnt : ∀ d, rs.memberCnt d = 0) :
    Counted rs := by
  intro d
  have hset : joined rs d = ∅ := by
    simp [joined, hjoin]
  rw [hset, hcnt]
  simp

/-! ## The flag of a direct room -/

def Flagged (rs : RoomServerState) : Prop :=
  rs.isDirect = (rs.creator.elim false fun c => (decodeCreate c.content).1.2.getD false)

theorem isDirect_onMemberEv (user : String) : (rs.onMemberEv ev user).isDirect = rs.isDirect := by
  obtain ⟨_, _, _, _, _, h⟩ := rs.onMemberEv_frame ev user
  rw [h]

theorem Flagged.onEvent (hrs : Flagged rs)
    (h : rs.onEvent localDomains recover ev = some rs') : Flagged rs' := by
  rcases onEvent_eq_some h with ⟨-, ext, rfl⟩ | ⟨-, ext, rfl⟩
  · exact hrs
  · by_cases hm : ev.type = MRoomMember
    · have hcreator : ∀ rs : RoomServerState, ∀ user,
          (rs.onMemberEv ev user).creator = rs.creator := fun rs user =>
        setting_onMemberEv user .creator
      rw [onEventUpdate_member hm, Flagged, isDirect_onMemberEv, hcreator]
      exact hrs
    · unfold onEventUpdate
      split
      case h_1 => rfl
      case h_2 hm' => exact absurd hm' hm
      all_goals exact hrs

/-! ## The snapshot and the token -/

/-- `GetLastState`: the upper bounds, in the order in which the domains are visited. -/
def getLastState (q : Range tl) : List Int := q.values.map Feeds.upper

def tokenText : List (String × Int) → String
  | [] => ""
  | (d, upper) :: rest =>
    rest.foldl (fun token p => token ++ ("_" ++ p.1) ++ ":" ++ itoa p.2) (d ++ ":" ++ itoa upper)

def calcToken (q : Range tl) : String :=
  tokenText ((q.keys.insertionSort (· ≤ ·)).map fun d => (d, (tl.getDomainTL d).upper))

theorem tokenText_concat (p₀ : String × Int) (l : List (String × Int)) (p : String × Int) :
    tokenText (p₀ :: (l ++ [p])) = tokenText (p₀ :: l) ++ ("_" ++ p.1) ++ ":" ++ itoa p.2 := by
  simp only [tokenText, foldl_append, foldl_cons, foldl_nil]

theorem tokenText_inj {ds : List String} {f g : String → Int}
    (h : tokenText (ds.map fun d => (d, f d)) = tokenText (ds.map fun d => (d, g d))) :
    ∀ d ∈ ds, f d = g d := by
  cases ds with
  | nil => exact nofun
  | cons d₀ ds =>
    -- the entries are taken off from the end
    induction ds using reverseRecOn with
    | nil =>
      intro d hd
      obtain rfl := mem_singleton.mp hd
      exact (append_colon_itoa_inj h).2
    | append_singleton ds d₁ ih =>
      simp only [map_cons, map_append, map_nil, tokenText_concat] at h
      obtain ⟨hrest, hlast⟩ := append_colon_itoa_inj h
      have hrest := ih ((String.append_left_inj _).mp hrest)
      intro d hd
      rw [← cons_append, mem_append, mem_singleton] at hd
      rcases hd with hd | rfl
      · exact hrest d hd
      · exact hlast

theorem insertionSort_eq_of_perm {l l' : List String} (h : l.Perm l') :
    l.insertionSort (· ≤ ·) = l'.insertionSort (· ≤ ·) := by
  refine List.Perm.eq_of_pairwise (fun a b _ _ => le_antisymm) (pairwise_insertionSort _ l)
    (pairwise_insertionSort _ l') ?_
  exact ((perm_insertionSort _ l).trans h).trans (perm_insertionSort _ l').symm

theorem getLastState_eq (q : Range tl) :
    getLastState q = q.keys.filterMap fun d => (tl d).map Feeds.upper := by
  rw [getLastState, Range.values, map_filterMap]

theorem length_getLastState (q : Range tl) : (getLastState q).length = q.keys.length := by
  have hall : ∀ l : List String, (∀ d ∈ l, (tl d).isSome = true) →
      (l.filterMap fun d => (tl d).map Feeds.upper).length = l.length := by
    intro l hl
    induction l with
    | nil => rfl
    | cons d l ih =>
      obtain ⟨f, hf⟩ := isSome_iff_exists.mp (hl d mem_cons_self)
      rw [filterMap_cons, hf]
      exact congrArg (· + 1) (ih fun d' hd' => hl d' (mem_cons_of_mem d hd'))
  rw [getLastState_eq]
  exact hall _ fun d hd => (q.mem_keys d).mp hd

theorem upper_eq_of_shown {tl tl' : DomainTl} (q : Range tl) (q' : Range tl')
    (hsub : ∀ d, (tl' d).isSome = true → (tl d).isSome = true)
    (hlast : (getLastState q').Perm (getLastState q)) (htoken : calcToken q' = calcToken q)
    (d : String) : (tl' d).map Feeds.upper = (tl d).map Feeds.upper := by
  have hperm : q'.keys.Perm q.keys := by
    have hlen : q'.keys.length = q.keys.length := by
      rw [← length_getLastState, ← length_getLastState, hlast.length_eq]
    have hsubset : q'.keys ⊆ q.keys := fun d hd =>
      (q.mem_keys d).mpr (hsub d ((q'.mem_keys d).mp hd))
    exact (q'.nodup.subperm hsubset).perm_of_length_le hlen.ge
  rw [calcToken, calcToken, insertionSort_eq_of_perm hperm] at htoken
  have hiff : (tl' d).isSome = true ↔ (tl d).isSome = true := by
    rw [← q'.mem_keys, ← q.mem_keys, hperm.mem_iff]
  cases hd : tl d with
  | none =>
    cases hd' : tl' d with
    | none => rfl
    | some f' => exact absurd (hiff.mp (by rw [hd']; rfl)) (by rw [hd]; exact nofun)
  | some f =>
    obtain ⟨f', hd'⟩ := isSome_iff_exists.mp (hiff.mpr (by rw [hd]; rfl))
    have hmem : d ∈ q.keys.insertionSort (· ≤ ·) :=
      (perm_insertionSort _ _).mem_iff.mpr ((q.mem_keys d).mpr (by rw [hd]; rfl))
    have hup := tokenText_inj htoken d hmem
    rw [DomainTl.getDomainTL, DomainTl.getDomainTL, hd, hd'] at hup
    rw [hd']
    exact congrArg some hup

theorem shown_of_upper_eq {tl tl' : DomainTl} (q : Range tl) (q' : Range tl')
    (h : ∀ d, (tl' d).map Feeds.upper = (tl d).map Feeds.upper) :
    (getLastState q').Perm (getLastState q) ∧ calcToken q' = calcToken q := by
  have hsome : ∀ d, (tl' d).isSome = (tl d).isSome := by
    intro d
    rw [← isSome_map, h, isSome_map]
  have hperm : q'.keys.Perm q.keys :=
    (perm_ext_iff_of_nodup q'.nodup q.nodup).mpr fun d => by
      rw [q'.mem_keys, q.mem_keys, hsome]
  constructor
  · rw [getLastState_eq, getLastState_eq, show (fun d => (tl' d).map Feeds.upper) = _ from funext h]
    exact hperm.filterMap _
  · have hup : ∀ d, (tl'.getDomainTL d).upper = (tl.getDomainTL d).upper := by
      intro d
      have hget : ∀ o : Option Feeds, (o.getD .empty).upper = (o.map Feeds.upper).getD 0 := by
        intro o
        cases o <;> rfl
      rw [DomainTl.getDomainTL, hget, h, ← hget]
      rfl
    rw [calcToken, calcToken, insertionSort_eq_of_perm hperm]
    simp only [hup]

/-- **The snapshot and the token show the upper bounds.** They agree, in whatever order the domains
are visited, if and only if every domain has the same bound in both; the second state has no other
domains. -/
theorem sameBounds_iff {tl tl' : DomainTl} (hfin : {d | (tl d).isSome = true}.Finite)
    (hsub : ∀ d, (tl' d).isSome = true → (tl d).isSome = true) : (∀ (q : Range tl) (q' : Range tl'),
      (getLastState q').Perm (getLastState q) ∧ calcToken q' = calcToken q) ↔
      ∀ d, (tl' d).map Feeds.upper = (tl d).map Feeds.upper := by
  constructor
  · intro h
    obtain ⟨q⟩ := Range.nonempty hfin
    obtain ⟨q'⟩ := Range.nonempty (hfin.subset hsub)
    exact upper_eq_of_shown q q' hsub (h q q').1 (h q q').2
  · exact fun h q q' => shown_of_upper_eq q q' h

theorem shown_of_single {n : Int}
    (h : ∀ d', (tl d').map Feeds.upper = if d' = d then some n else none) (q : Range tl) :
    getLastState q = [n] ∧ calcToken q = d ++ ":" ++ itoa n := by
  have hkeys : q.keys = [d] := by
    refine perm_singleton.mp ((perm_ext_iff_of_nodup q.nodup (nodup_singleton d)).mpr
      fun d' => ?_)
    rw [q.mem_keys, mem_singleton, ← isSome_map (f := Feeds.upper), h]
    split_ifs with hd <;> simp [hd]
  have hd := h d
  rw [if_pos rfl] at hd
  obtain ⟨f, hf, rfl⟩ := map_eq_some_iff.mp hd
  constructor
  · rw [getLastState_eq, hkeys, filterMap_cons, hd]
    rfl
  · rw [calcToken, hkeys]
    show d ++ ":" ++ itoa (tl.getDomainTL d).upper = _
    rw [DomainTl.getDomainTL, hf]
    rfl

/-! ## Reachable states -/

structure Regular (rs : RoomServerState) : Prop where
  mapped : rs.Mapped
  counted : Counted rs
  flagged : Flagged rs

theorem Regular.onEvent (hrs : Regular rs) (h : rs.onEvent localDomains recover ev = some rs') :
    Regular rs' :=
  ⟨hrs.mapped.onEvent h, hrs.counted.onEvent hrs.mapped h, hrs.flagged.onEvent h⟩

theorem Regular.of_no_member (hmap : ∀ m user, rs.map m user = none)
    (hcnt : ∀ d, rs.memberCnt d = 0) (hflag : Flagged rs) : Regular rs where
  mapped :=
    ⟨fun user m m' h => absurd h (by rw [hmap]; exact nofun),
      fun user m h => absurd h (by rw [hmap]; exact nofun)⟩
  counted := counted_of_no_join (hmap .join) hcnt
  flagged := hflag

theorem seen_init : Seen .init := by
  have hnone := held_init
  refine ⟨fun p e he => ?_, fun p e he => ?_, by simp [TimedState.init]⟩
  all_goals cases (hnone p).symm.trans he

theorem TimedState.Reachable.regular (h : t.Reachable eventNID localDomains) : Regular t.rs := by
  obtain ⟨evs, h⟩ := h.state
  refine run_preserves (fun hrs h => hrs.onEvent h) ?_ h
  exact .of_no_member (fun m _ => by cases m <;> rfl) (fun _ => rfl) rfl

theorem TimedState.mem_of_held {evs : List (Bool × Event)}
    (h : run (fun t a => t.onEvent eventNID localDomains a.1 a.2) init evs = some t)
    (he : t.rs.held p = some e) : e ∈ evs.map Prod.snd := by
  have hrun : ∀ (evs : List (Bool × Event)) (s : TimedState),
      run (fun t a => t.onEvent eventNID localDomains a.1 a.2) s evs = some t →
      s.rs.held p = some e ∨ e ∈ evs.map Prod.snd := by
    intro evs
    induction evs with
    | nil =>
      intro s h
      cases h
      exact .inl he
    | cons a evs ih =>
      intro s h
      obtain ⟨s', hs', h⟩ := run_cons_eq_some.mp h
      rcases ih s' h with h | h
      · rcases held_onEvent (onEvent_eq_some hs').1 h with ⟨rfl, -⟩ | h
        · exact .inr mem_cons_self
        · exact .inl h
      · exact .inr (mem_cons_of_mem _ h)
  rcases hrun evs init h with h | h
  · cases (held_init p).symm.trans h
  · exact h

theorem TimedState.Reachable.seen (h : t.Reachable eventNID localDomains) : Seen t := by
  obtain ⟨evs, h⟩ := h
  exact run_preserves (fun ht h => ht.onEvent h) seen_init h

end Ligase.Room
