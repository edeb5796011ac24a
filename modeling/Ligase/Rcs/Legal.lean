import Ligase.Rcs.Keys
import Ligase.Rcs.LocalInvite

/-!
# Memberships that the state machine allows

Some branches of the handlers build events and write states without the state machine.

* **`legal_iff`**: for which calls the memberships that come back are paths of the state machine.
-/

namespace Ligase.Rcs

open Lib Auth Proc Store Option List

/-! ## Paths -/

def St.fire (s : St) (membership : String) : Option St :=
  (transitions.find? fun t => t.start = s ∧ t.event = membership).map Transition.next

/-- The recorded state of a user in a room; who is no party has that in which a row begins. -/
def Store.state (st : Store) (roomID user : String) : St := (st.recorded roomID user).getD .init

def emitted (evs : List Event) (roomID user : String) : List String :=
  evs.filterMap fun e =>
    if e.type = MRoomMember ∧ e.roomID = roomID ∧ e.stateKey = some user then textOf e else none

/-- **The memberships that come back are paths of the state machine.** -/
def Legal (st : Store) (evs : List Event) : Prop :=
  ∀ roomID user, (run St.fire (st.state roomID user) (emitted evs roomID user)).isSome = true

variable {p : Processor} {ev e e₁ e₂ : Event} {st st' : Store} {evs : List Event}
  {f : RCSFriendship} {s : St} {stateKey op roomID room₁ room₂ user user₁ user₂ sender₁ sender₂ m
    m₁ m₂ : String}

theorem fire_leave : (s.fire "leave").isSome = true ↔ s ≠ .init := by cases s <;> decide

theorem fire_join : (s.fire "join").isSome = true ↔ s ≠ .leave := by cases s <;> decide

theorem fire_init (h : (s.fire m).isSome = true) :
    (St.init.fire m).isSome = true ↔ m ≠ "leave" := by
  have hall : ∀ t ∈ transitions, (St.init.fire t.event).isSome = true ↔ t.event ≠ "leave" := by
    decide
  unfold St.fire at h
  rw [isSome_map] at h
  obtain ⟨t, ht⟩ := isSome_iff_exists.mp h
  obtain ⟨-, rfl⟩ : t.start = s ∧ t.event = m := by simpa using find?_some ht
  exact hall t (mem_of_find?_eq_some ht)

section
variable (h : IsMember e room₁ sender₁ user₁ m)
include h

theorem IsMember.emitted_cons : emitted (e :: evs) roomID user =
      if room₁ = roomID ∧ user₁ = user then m :: emitted evs roomID user
      else emitted evs roomID user := by
  unfold emitted
  rw [filterMap_cons]
  simp only [h.type, h.roomID, h.stateKey, h.textOf, true_and, some.injEq]
  split_ifs <;> rfl

theorem IsMember.legal_singleton :
    Legal st [e] ↔ ((st.state room₁ user₁).fire m).isSome = true := by
  have hrun : ∀ s : St, (run St.fire s [m]).isSome = (s.fire m).isSome := fun s => by
    simp only [run]
    cases s.fire m <;> rfl
  constructor
  · intro hl
    have hown := hl room₁ user₁
    rwa [h.emitted_cons, if_pos ⟨rfl, rfl⟩, show emitted [] room₁ user₁ = [] from rfl, hrun] at hown
  · intro hf roomID user
    rw [h.emitted_cons, show emitted [] roomID user = [] from rfl]
    split_ifs with heq
    · obtain ⟨rfl, rfl⟩ := heq
      rw [hrun]
      exact hf
    · rfl

theorem IsMember.legal_cons (hother : emitted evs room₁ user₁ = []) :
    Legal st (e :: evs) ↔ Legal st [e] ∧ Legal st evs := by
  have hsplit : ∀ roomID user, emitted (e :: evs) roomID user =
      emitted [e] roomID user ++ emitted evs roomID user := fun roomID user => by
    simp only [emitted, ← filterMap_append, singleton_append]
  have hone : ∀ roomID user, emitted [e] roomID user = [] ∨ emitted evs roomID user = [] := by
    intro roomID user
    rw [h.emitted_cons]
    split_ifs with heq
    · obtain ⟨rfl, rfl⟩ := heq
      exact .inr hother
    · exact .inl rfl
  constructor
  · intro hl
    refine ⟨fun roomID user => ?_, fun roomID user => ?_⟩
    · have hown := hl roomID user
      rw [hsplit] at hown
      rcases hone roomID user with hnil | hnil
      · rw [hnil]
        rfl
      · rwa [hnil, append_nil] at hown
    · have hown := hl roomID user
      rw [hsplit] at hown
      rcases hone roomID user with hnil | hnil
      · rwa [hnil, nil_append] at hown
      · rw [hnil]
        rfl
  · rintro ⟨h₁, h₂⟩ roomID user
    rw [hsplit]
    rcases hone roomID user with hnil | hnil
    · rw [hnil, nil_append]
      exact h₂ roomID user
    · rw [hnil, append_nil]
      exact h₁ roomID user

theorem IsMember.emitted_of_room_ne (hne : room₁ ≠ roomID) : emitted [e] roomID user = [] := by
  rw [h.emitted_cons, if_neg fun heq => hne heq.1]
  rfl

end

theorem legal_pair (h₁ : IsMember e₁ room₁ sender₁ user₁ m₁)
    (h₂ : IsMember e₂ room₂ sender₂ user₂ m₂) (hne : room₂ ≠ room₁) :
    Legal st [e₁, e₂] ↔ ((st.state room₁ user₁).fire m₁).isSome = true ∧
      ((st.state room₂ user₂).fire m₂).isSome = true := by
  rw [h₁.legal_cons (h₂.emitted_of_room_ne hne), h₁.legal_singleton, h₂.legal_singleton]

/-! ## The state that the handlers read -/

theorem state_of_row (h : st.getFriendshipByRoomID roomID = some f) (user : String) :
    st.state roomID user = stateOf f user ∨ st.state roomID user = .init := by
  have hrec : f.view.recorded user = if user = f.fcID then some f.fcIDState
      else if user = f.toFcID then some f.toFcIDState else none := rfl
  rw [state, recorded_of_row h, hrec, stateOf]
  by_cases hfc : user = f.fcID
  · rw [if_pos hfc, if_pos hfc]
    exact .inl rfl
  · rw [if_neg hfc, if_neg hfc]
    by_cases hto : user = f.toFcID
    · rw [if_pos hto]
      exact .inl rfl
    · rw [if_neg hto]
      exact .inr rfl

theorem fire_of_stateOf (h : st.getFriendshipByRoomID roomID = some f)
    (hf : ((stateOf f user).fire m).isSome = true) : ((st.state roomID user).fire m).isSome = true ↔
      (m = "leave" → st.state roomID user ≠ .init) := by
  by_cases hm : m = "leave"
  · subst hm
    rw [fire_leave]
    exact ⟨fun hne _ => hne, fun hne => hne rfl⟩
  · refine ⟨fun _ he => absurd he hm, fun _ => ?_⟩
    rcases state_of_row h user with he | he
    · rwa [he]
    · rw [he]
      exact (fire_init hf).mpr hm

/-! ## The handlers -/

theorem stateKey_of_ok (h : handleMembership p ev st = (.ok evs, st')) :
    ∃ stateKey, ev.stateKey = some stateKey := by
  obtain ⟨op, s₁, -, hin⟩ := bind_eq_ok.mp h
  cases hk : ev.stateKey with
  | some stateKey => exact ⟨stateKey, rfl⟩
  | none =>
    split_ifs at hin
    · rw [handleInvite, hk] at hin
      exact absurd hin fail_ne_ok
    · rw [handleNormalMembership, hk] at hin
      exact absurd hin fail_ne_ok

theorem fire_of_normal (hev : IsMember ev ev.roomID ev.sender stateKey op)
    (hrow : st.getFriendshipByRoomID ev.roomID = some f) (hsender : ¬ Rejoins p ev stateKey op f)
    (h : handleNormalMembership p ev st = (.ok evs, st')) :
    ((stateOf f stateKey).fire op).isSome = true := by
  unfold handleNormalMembership at h
  rw [hev.stateKey] at h
  have hin := membership_bind_eq_ok hev h
  rw [query_bind_eq_ok, hrow] at hin
  dsimp only at hin
  rw [if_neg (show ¬ (p.isLocal ev.sender = true ∧ stateOf f ev.sender = .leave ∧ op = "invite" ∧
    ev.sender ≠ stateKey) from hsender)] at hin
  obtain ⟨_, _, htrigger, -⟩ := bind_eq_ok.mp hin
  unfold St.fire
  cases ht : transitions.find? fun t => t.start = stateOf f stateKey ∧ t.event = op with
  | none =>
    rw [trigger, ht] at htrigger
    exact absurd htrigger fail_ne_ok
  | some t => rfl

theorem handleNormalMembership_of_invite (hev : IsMember ev ev.roomID ev.sender stateKey op)
    (hglare : op = "invite" → st.glare ev stateKey = none)
    (hlocal : op = "invite" → p.isLocal ev.sender = true → ∀ f,
      st.getFriendshipByRoomID ev.roomID = some f → stateOf f ev.sender ≠ .invite)
    (h : handleMembership p ev st = (.ok evs, st')) :
    handleNormalMembership p ev st = (.ok evs, st') := by
  have hin := membership_bind_eq_ok hev h
  split_ifs at hin with hop
  · rw [handleInvite, hev.stateKey] at hin
    have hnone := hglare hop
    split_ifs at hin with hl
    · unfold handleLocalInvite at hin
      rw [query_bind_eq_ok] at hin
      rw [show Option.filter _ (st.getFriendshipByFcIDAndToFcID stateKey ev.sender) = _
        from hnone] at hin
      obtain ⟨f₁, hf₁, hin⟩ := require_bind_eq_ok.mp hin
      have hst := hlocal hop hl f₁ hf₁
      unfold stateOf at hst
      split_ifs at hin hst with hc hs hs
      · exact absurd hs hst
      · exact hin
      · exact absurd hs hst
      · exact hin
    · unfold handleFedInvite at hin
      rw [query_bind_eq_ok] at hin
      cases hparties : st.getFriendshipByFcIDAndToFcID stateKey ev.sender with
      | none =>
        rw [hparties] at hin
        exact hin
      | some f₂ =>
        rw [hparties] at hin
        rw [glare, hparties, filter_some] at hnone
        have hsame : ¬ f₂.roomID ≠ ev.roomID := fun hne => by simp [hne] at hnone
        dsimp only at hin
        rwa [if_neg hsame] at hin
  · exact hin

theorem legal_rejoined {invites : List Event}
    (hrow : st.getFriendshipByRoomID ev.roomID = some f) (hsender : Rejoins p ev stateKey op f)
    (h₁ : IsMember e₁ ev.roomID ev.sender ev.sender "invite")
    (h₂ : IsMember e₂ ev.roomID ev.sender ev.sender "join")
    (hinvites : InvitedBack ev stateKey (stateOf f stateKey) invites) :
    Legal st (e₁ :: e₂ :: invites) := by
  -- nobody has the state in which one is joined
  have hstate : ∀ user, stateOf f user = .leave → st.state ev.roomID user ≠ .join := by
    intro user hu
    rcases state_of_row hrow user with he | he
    · rw [he, hu]
      decide
    · rw [he]
      decide
  have hself : ∀ s : St, s ≠ .join → (run St.fire s ["invite", "join"]).isSome = true := by
    intro s hs
    cases s <;> first | decide | exact absurd rfl hs
  have hback : ∀ s : St, s ≠ .join → (run St.fire s ["invite"]).isSome = true := by
    intro s hs
    cases s <;> first | decide | exact absurd rfl hs
  intro roomID user
  rw [h₁.emitted_cons, h₂.emitted_cons]
  unfold InvitedBack at hinvites
  split_ifs at hinvites with hleft
  · obtain ⟨e₃, rfl, h₃⟩ := hinvites
    rw [h₃.emitted_cons, show emitted [] roomID user = [] from rfl]
    split_ifs with hu hk hk
    · exact absurd (hu.2.trans hk.2.symm) hsender.2.2.2
    · obtain ⟨rfl, rfl⟩ := hu
      exact hself _ (hstate _ hsender.2.1)
    · obtain ⟨rfl, rfl⟩ := hk
      exact hback _ (hstate _ hleft)
    · rfl
  · subst hinvites
    split_ifs with hu
    · obtain ⟨rfl, rfl⟩ := hu
      exact hself _ (hstate _ hsender.2.1)
    · rfl

/-- A leave is not for one without a state; and where an invite meets another room, the one who
gives up a room has a state there, and the one who joins has not left. -/
structure Declared (p : Processor) (ev : Event) (stateKey : String) (st : Store) : Prop where
  leave : textOf ev = some "leave" → st.state ev.roomID stateKey ≠ .init
  localGlare : textOf ev = some "invite" → p.isLocal ev.sender = true →
    ∀ f₂, st.glare ev stateKey = some f₂ →
      st.state ev.roomID ev.sender ≠ .init ∧ st.state f₂.roomID ev.sender ≠ .leave
  fedGlare : textOf ev = some "invite" → p.isLocal ev.sender = false →
    ∀ f₂, st.glare ev stateKey = some f₂ →
      if ev.roomID < f₂.roomID then
        st.state f₂.roomID stateKey ≠ .init ∧ st.state ev.roomID stateKey ≠ .leave
      else st.state ev.roomID stateKey ≠ .init

theorem legal_normal (hev : IsMember ev ev.roomID ev.sender stateKey op)
    (hn : NormalOutcome p ev stateKey op st st' evs)
    (h : handleNormalMembership p ev st = (.ok evs, st')) :
    Legal st evs ↔ (op = "leave" → st.state ev.roomID stateKey ≠ .init) := by
  cases hn with
  | noRow hrow hop hevs =>
    subst hevs hop
    rw [hev.legal_singleton, fire_leave]
    exact ⟨fun hne _ => hne, fun hne => hne rfl⟩
  | ignored f hrow hsender hop hevs | moved f s hrow hsender hop hevs =>
    subst hevs
    rw [hev.legal_singleton]
    exact fire_of_stateOf hrow (fire_of_normal hev hrow hsender h)
  | rejoined f e₁ e₂ invites hrow hsender h₁ h₂ hinvites hevs =>
    subst hevs
    refine ⟨fun _ hop => ?_, fun _ => legal_rejoined hrow hsender h₁ h₂ hinvites⟩
    exact absurd (hop.symm.trans hsender.2.2.1) (by decide)

theorem declared_iff_leave (hnone : textOf ev = some "invite" → st.glare ev stateKey = none) :
    Declared p ev stateKey st ↔
      (textOf ev = some "leave" → st.state ev.roomID stateKey ≠ .init) := by
  refine ⟨fun hd => hd.leave, fun hleave => ⟨hleave, ?_, ?_⟩⟩
  all_goals exact fun hi _ f₂ hf₂ => absurd ((hnone hi).symm.trans hf₂) (by simp)

theorem declared_iff_localGlare {f₂ : RCSFriendship} (hinvite : textOf ev = some "invite")
    (hlocal : p.isLocal ev.sender = true) (hglare : st.glare ev stateKey = some f₂) :
    Declared p ev stateKey st ↔
      st.state ev.roomID ev.sender ≠ .init ∧ st.state f₂.roomID ev.sender ≠ .leave := by
  refine ⟨fun hd => hd.localGlare hinvite hlocal f₂ hglare, fun hstates => ⟨?_, ?_, ?_⟩⟩
  · exact fun hl => absurd (hinvite.symm.trans hl) (by decide)
  · intro _ _ g hg
    obtain rfl := some.inj (hglare.symm.trans hg)
    exact hstates
  · exact fun _ hremote => absurd (hlocal.symm.trans hremote) (by decide)

theorem declared_iff_fedGlare {f₂ : RCSFriendship} (hinvite : textOf ev = some "invite")
    (hremote : p.isLocal ev.sender = false) (hglare : st.glare ev stateKey = some f₂) :
    Declared p ev stateKey st ↔
      if ev.roomID < f₂.roomID then
        st.state f₂.roomID stateKey ≠ .init ∧ st.state ev.roomID stateKey ≠ .leave
      else st.state ev.roomID stateKey ≠ .init := by
  refine ⟨fun hd => hd.fedGlare hinvite hremote f₂ hglare, fun hstates => ⟨?_, ?_, ?_⟩⟩
  · exact fun hl => absurd (hinvite.symm.trans hl) (by decide)
  · exact fun _ hlocal => absurd (hlocal.symm.trans hremote) (by decide)
  · intro _ _ g hg
    obtain rfl := some.inj (hglare.symm.trans hg)
    exact hstates

/-- **The memberships that come back are paths of the state machine** for exactly these calls. -/
theorem legal_iff (h : handleMembership p ev st = (.ok evs, st')) :
    ∃ stateKey, ev.stateKey = some stateKey ∧ (Legal st evs ↔ Declared p ev stateKey st) := by
  obtain ⟨stateKey, hk⟩ := stateKey_of_ok h
  obtain ⟨op, hev, hout⟩ := handleMembership_outcome hk h
  refine ⟨stateKey, hk, ?_⟩
  have htext := hev.textOf
  cases hout with
  | normal hn hglare hlocal =>
    have hin := handleNormalMembership_of_invite hev hglare hlocal h
    have hnone : textOf ev = some "invite" → st.glare ev stateKey = none := fun hi =>
      hglare (some.inj (htext.symm.trans hi))
    rw [legal_normal hev hn hin, declared_iff_leave hnone, htext, some.injEq]
  | joinedOther f₂ st₁ e₁ e₂ hop hlocal hglare h₁ h₂ hevs =>
    subst hevs hop
    rw [legal_pair h₁ h₂ (glare_eq_some hglare).2.2.2, fire_leave, fire_join,
      declared_iff_localGlare htext hlocal hglare]
  | joinedOwn f e hop hlocal hglare hrow hsender he hevs =>
    subst hevs hop
    rw [he.legal_singleton, fire_join, declared_iff_leave fun _ => hglare]
    refine iff_of_true ?_ fun hl => absurd (htext.symm.trans hl) (by decide)
    rcases state_of_row hrow ev.sender with hs | hs
    · rw [hs, hsender]
      decide
    · rw [hs]
      decide
  | keptOther f₁ f₂ st₁ e₁ e₂ hop hremote hglare hlt hrow h₁ h₂ hevs =>
    subst hevs hop
    rw [legal_pair h₁ h₂ (glare_eq_some hglare).2.2.2.symm, fire_leave, fire_join,
      declared_iff_fedGlare htext hremote hglare, if_pos hlt]
  | keptOwn f₂ e hop hremote hglare hlt he hevs =>
    subst hevs hop
    rw [he.legal_singleton, fire_leave, declared_iff_fedGlare htext hremote hglare, if_neg hlt]

theorem legal_iff_join :
    handleMembership serverX (selfJoin "@b:x") invitedStore =
        (.ok [selfJoin "@b:x"], joinedStore "@b:x" "b") ∧
      Legal invitedStore [selfJoin "@b:x"] := by
  have h : handleMembership serverX (selfJoin "@b:x") invitedStore =
      (.ok [selfJoin "@b:x"], joinedStore "@b:x" "b") := rfl
  obtain ⟨stateKey, -, hiff⟩ := legal_iff h
  refine ⟨h, hiff.mpr ⟨fun hl => ?_, fun hi => ?_, fun hi => ?_⟩⟩
  · exact absurd hl (by decide)
  all_goals exact absurd hi (by decide)

/-! ## One who has left -/

/-- Alice makes a room and invites Bob, who declines; then Bob makes a room. -/
def bobDeclines : List Call :=
  bobInvited ++
    [.membership serverX (memberEv "$4:x" "!r:x" "@b:x" "@b:x" "leave"),
      .create (createEv "$5:x" "!s:x" "@b:x"),
      .membership serverX (memberEv "$6:x" "!s:x" "@b:x" "@b:x" "join")]

def bobInvites : Event := memberEv "$7:x" "!s:x" "@b:x" "@a:x" "invite"

/-- When Bob, who has declined the room of Alice, invites Alice to another room, Bob joins that of
Alice without an invite. -/
theorem joins_from_leave :
    RunMeets Call.step (fun st call => call.Handled st) .empty bobDeclines ∧
      ∃ st evs st', run Call.step .empty bobDeclines = some st ∧
        handleMembership serverX bobInvites st = (.ok evs, st') ∧
        st.recorded "!r:x" "@b:x" = some .leave ∧ emitted evs "!r:x" "@b:x" = ["join"] ∧
        St.fire .leave "join" = none ∧ ¬ Legal st evs := by
  refine ⟨⟨rfl, rfl, rfl, rfl, rfl, rfl, trivial⟩, _, _, _, rfl, rfl, rfl, by rfl, rfl, fun h => ?_⟩
  exact absurd (h "!r:x" "@b:x") (by decide)

end Ligase.Rcs
