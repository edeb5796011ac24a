import Ligase.Rcs.Rows

/-!
# The outcomes of a member event

What a member event that is handled without an error writes and which events come back, over all
branches of the handlers.

* **`handleMembership_outcome`**: every member event that is handled has one of them.
-/

namespace Ligase.Rcs

open Lib Auth Proc Store Option List

/-! ## States and rows -/

/-- The name of a state, which is also that of the membership. -/
def St.text : St → String
  | .init => "init"
  | .invite => "invite"
  | .join => "join"
  | .leave => "leave"

/-- The row with a new state of a user; who is not the creator is taken for the other party. -/
def View.set (v : View) (user : String) (s : St) : View :=
  if user = v.fcID then { v with fcIDState := s } else { v with toFcID := user, toFcIDState := s }

def View.setStates (v : View) (user : String) (own other : St) : View :=
  if user = v.fcID then { v with fcIDState := own, toFcIDState := other }
  else { v with fcIDState := other, toFcIDState := own }

def InvitedBack (ev : Event) (stateKey : String) (s : St) (invites : List Event) : Prop :=
  if s = .leave then ∃ e, invites = [e] ∧ IsMember e ev.roomID ev.sender stateKey "invite"
  else invites = []

section
variable (p : Processor) (ev : Event) (stateKey op : String) (st st' : Store) (evs : List Event)

/-- **The outcomes of a member event in a room**: a leave in a room that has been given up; a
membership that the state key has already; a new one; or one who has left comes back. -/
inductive NormalOutcome : Prop where
  | noRow (hrow : st.getFriendshipByRoomID ev.roomID = none) (hop : op = "leave")
      (hevs : evs = [ev]) (hst : st' = st)
  | ignored (f : RCSFriendship) (hrow : st.getFriendshipByRoomID ev.roomID = some f)
      (hsender : ¬ Rejoins p ev stateKey op f) (hop : op = (stateOf f stateKey).text)
      (hevs : evs = [ev]) (hst : st' = st)
  | moved (f : RCSFriendship) (s : St) (hrow : st.getFriendshipByRoomID ev.roomID = some f)
      (hsender : ¬ Rejoins p ev stateKey op f) (hop : op = s.text) (hevs : evs = [ev])
      (hst : Writes st st' ev.roomID (some (f.view.set stateKey s)))
  | rejoined (f : RCSFriendship) (e₁ e₂ : Event) (invites : List Event)
      (hrow : st.getFriendshipByRoomID ev.roomID = some f) (hsender : Rejoins p ev stateKey op f)
      (h₁ : IsMember e₁ ev.roomID ev.sender ev.sender "invite")
      (h₂ : IsMember e₂ ev.roomID ev.sender ev.sender "join")
      (hinvites : InvitedBack ev stateKey (stateOf f stateKey) invites)
      (hevs : evs = e₁ :: e₂ :: invites)
      (hst : Writes st st' ev.roomID
        (some (f.view.setStates ev.sender .join (stateOf f stateKey).invitedBack)))

/-- **The outcomes of a member event**: an invite of this server that meets another one or is sent
by one who is invited, an invite of another server that meets one of this server, or else those
above. -/
inductive Outcome : Prop where
  | normal (h : NormalOutcome p ev stateKey op st st' evs)
      (hglare : op = "invite" → st.glare ev stateKey = none)
      (hlocal : op = "invite" → p.isLocal ev.sender = true → ∀ f,
        st.getFriendshipByRoomID ev.roomID = some f → stateOf f ev.sender ≠ .invite)
  | joinedOther (f₂ : RCSFriendship) (st₁ : Store) (e₁ e₂ : Event) (hop : op = "invite")
      (hlocal : p.isLocal ev.sender = true) (hglare : st.glare ev stateKey = some f₂)
      (h₁ : IsMember e₁ ev.roomID ev.sender ev.sender "leave")
      (h₂ : IsMember e₂ f₂.roomID ev.sender ev.sender "join") (hevs : evs = [e₁, e₂])
      (hst₁ : Writes st st₁ ev.roomID none)
      (hst : Writes st₁ st' f₂.roomID (some { f₂.view with toFcIDState := .join }))
  | joinedOwn (f : RCSFriendship) (e : Event) (hop : op = "invite")
      (hlocal : p.isLocal ev.sender = true) (hglare : st.glare ev stateKey = none)
      (hrow : st.getFriendshipByRoomID ev.roomID = some f)
      (hsender : stateOf f ev.sender = .invite)
      (he : IsMember e ev.roomID ev.sender ev.sender "join") (hevs : evs = [e])
      (hst : Writes st st' ev.roomID (some (if ev.sender = f.fcID
        then { f.view with fcIDState := .join } else { f.view with toFcIDState := .join })))
  | keptOther (f₁ f₂ : RCSFriendship) (st₁ : Store) (e₁ e₂ : Event) (hop : op = "invite")
      (hlocal : p.isLocal ev.sender = false) (hglare : st.glare ev stateKey = some f₂)
      (hlt : ev.roomID < f₂.roomID) (hrow : st.getFriendshipByRoomID ev.roomID = some f₁)
      (h₁ : IsMember e₁ f₂.roomID stateKey stateKey "leave")
      (h₂ : IsMember e₂ ev.roomID stateKey stateKey "join") (hevs : evs = [e₁, e₂])
      (hst₁ : Writes st st₁ f₂.roomID none)
      (hst : Writes st₁ st' ev.roomID (some ⟨ev.sender, stateKey, f₁.fcIDState, .join⟩))
  | keptOwn (f₂ : RCSFriendship) (e : Event) (hop : op = "invite")
      (hlocal : p.isLocal ev.sender = false) (hglare : st.glare ev stateKey = some f₂)
      (hlt : ¬ ev.roomID < f₂.roomID)
      (he : IsMember e ev.roomID stateKey stateKey "leave") (hevs : evs = [e])
      (hst : Writes st st' ev.roomID none)

end

variable {p : Processor} {ev : Event} {stateKey op : String} {st st' : Store} {evs : List Event}
  {f : RCSFriendship}

variable {roomID u v : String} {s : St} {f₂ : RCSFriendship}

theorem IsMember.textOf {sender : String}
    (h : IsMember ev roomID sender stateKey op) : textOf ev = some op := by
  obtain ⟨c, hc, rfl⟩ := h.content
  rw [textOf, hc]

theorem text_eq_invite (h : "invite" = s.text) : s = .invite := by
  cases s with
  | invite => rfl
  | init | join | leave => exact absurd h (by decide)

theorem InvitedBack.member {invites : List Event} {e : Event}
    (h : InvitedBack ev stateKey s invites) (he : e ∈ invites) :
    IsMember e ev.roomID ev.sender stateKey "invite" := by
  unfold InvitedBack at h
  split_ifs at h
  · obtain ⟨e₃, rfl, h₃⟩ := h
    rwa [mem_singleton.mp he]
  · exact absurd (h ▸ he) not_mem_nil

theorem glare_eq_some (h : st.glare ev stateKey = some f) :
    st.getFriendshipByRoomID f.roomID = some f ∧ f.fcID = stateKey ∧ f.toFcID = ev.sender ∧
      f.roomID ≠ ev.roomID := by
  obtain ⟨hparties, hne⟩ := filter_eq_some_iff.mp h
  obtain ⟨hrow, hfc, hto⟩ := getFriendshipByFcIDAndToFcID_eq_some hparties
  exact ⟨hrow, hfc, hto, of_decide_eq_true hne⟩

/-! ## The handlers -/

theorem transition_spec {t : Transition}
    (h : (transitions.find? fun t => t.start = s ∧ t.event = op) = some t) :
    t.start = s ∧ op = t.next.text ∧ (t.action = .ignore → t.next = t.start) := by
  have hall : ∀ t ∈ transitions,
      t.event = t.next.text ∧ (t.action = .ignore → t.next = t.start) := by decide
  obtain ⟨hs, hop⟩ : t.start = s ∧ t.event = op := by simpa using find?_some h
  obtain ⟨hnext, hignore⟩ := hall t (mem_of_find?_eq_some h)
  exact ⟨hs, hop ▸ hnext, hignore⟩

theorem writes_replace {f' : RCSFriendship} (hu : st.updateFriendshipByRoomID f' = some st')
    (hrow : st.getFriendshipByRoomID roomID = some f) (hroom : f'.roomID = f.roomID) :
    Writes st st' roomID (some f'.view) := by
  obtain rfl := (getFriendshipByRoomID_eq_some.mp hrow).2
  rw [← hroom] at hrow ⊢
  exact writes_update hu (isSome_iff_exists.mpr ⟨f, hrow⟩) rfl

theorem rejoin_outcome (hrow : st.getFriendshipByRoomID ev.roomID = some f)
    (hsender : Rejoins p ev stateKey op f) (h : rejoin p ev stateKey f st = (.ok evs, st')) :
    NormalOutcome p ev stateKey op st st' evs := by
  obtain ⟨e₁, h₁, hin₁⟩ := buildEvent_bind_eq_ok h
  obtain ⟨e₂, h₂, hin₂⟩ := buildEvent_bind_eq_ok hin₁
  obtain ⟨invites, s₁, hinv, hin₃⟩ := bind_eq_ok.mp hin₂
  obtain rfl := reads_inviteIfLeft.eq hinv
  obtain ⟨s₂, hu, hret⟩ := commit_bind_eq_ok.mp hin₃
  obtain ⟨rfl, rfl⟩ := pure_eq_ok.mp hret
  refine .rejoined f e₁ e₂ invites hrow hsender h₁ h₂ ?_ rfl ?_
  · unfold inviteIfLeft at hinv
    unfold InvitedBack
    split_ifs at hinv ⊢
    · obtain ⟨e₃, h₃, hret⟩ := buildEvent_bind_eq_ok hinv
      exact ⟨e₃, (pure_eq_ok.mp hret).1.symm, h₃⟩
    · exact (pure_eq_ok.mp hinv).1.symm
  · have hw := writes_replace hu hrow rfl
    by_cases hc : ev.sender = f.fcID
    · simp only [if_pos hc] at hw
      rw [View.setStates, if_pos (show ev.sender = f.view.fcID from hc)]
      exact hw
    · simp only [if_neg hc] at hw
      rw [View.setStates, if_neg (show ev.sender ≠ f.view.fcID from hc)]
      exact hw

theorem normal_outcome (hev : IsMember ev ev.roomID ev.sender stateKey op)
    (h : handleNormalMembership p ev st = (.ok evs, st')) :
    NormalOutcome p ev stateKey op st st' evs := by
  unfold handleNormalMembership at h
  rw [hev.stateKey] at h
  have hin := membership_bind_eq_ok hev h
  rw [query_bind_eq_ok] at hin
  cases hrow : st.getFriendshipByRoomID ev.roomID with
  | none =>
    rw [hrow] at hin
    split_ifs at hin with hop
    · obtain ⟨rfl, rfl⟩ := pure_eq_ok.mp hin
      exact .noRow hrow hop.1 rfl rfl
    · exact absurd hin fail_ne_ok
  | some f =>
    rw [hrow] at hin
    dsimp only at hin
    split_ifs at hin with hsender
    · exact rejoin_outcome hrow hsender hin
    · obtain ⟨_, s₁, htrigger, hret⟩ := bind_eq_ok.mp hin
      obtain ⟨rfl, rfl⟩ := pure_eq_ok.mp hret
      have hroom := (getFriendshipByRoomID_eq_some.mp hrow).2
      cases ht : transitions.find? fun t => t.start = stateOf f stateKey ∧ t.event = op with
      | none =>
        rw [trigger, ht] at htrigger
        exact absurd htrigger fail_ne_ok
      | some t =>
        obtain ⟨hstart, hop, hignore⟩ := transition_spec ht
        by_cases ha : t.action = .ignore
        · rw [trigger, ht] at htrigger
          simp only [ha] at htrigger
          refine .ignored f hrow hsender ?_ rfl (pure_eq_ok.mp htrigger).2.symm
          rw [hop, hignore ha, hstart]
        · refine .moved f t.next hrow hsender hop rfl ?_
          rw [← hroom] at hrow ⊢
          exact writes_trigger hrow ht ha htrigger

theorem localInvite_outcome (hev : IsMember ev ev.roomID ev.sender stateKey "invite")
    (hlocal : p.isLocal ev.sender = true)
    (h : handleLocalInvite p ev stateKey st = (.ok evs, st')) :
    Outcome p ev stateKey "invite" st st' evs := by
  unfold handleLocalInvite at h
  rw [query_bind_eq_ok] at h
  cases hglare : st.glare ev stateKey with
  | some f₂ =>
    rw [show Option.filter _ (st.getFriendshipByFcIDAndToFcID stateKey ev.sender) = _
      from hglare] at h
    obtain ⟨s₁, hs₁, hin₁⟩ := commit_bind_eq_ok.mp h
    obtain ⟨e₁, h₁, hin₂⟩ := buildEvent_bind_eq_ok hin₁
    obtain ⟨r, -, hin₃⟩ := require_bind_eq_ok.mp hin₂
    obtain ⟨s₂, hs₂, hin₄⟩ := commit_bind_eq_ok.mp hin₃
    obtain ⟨e₂, h₂, hret⟩ := buildEvent_bind_eq_ok hin₄
    obtain ⟨rfl, rfl⟩ := pure_eq_ok.mp hret
    obtain rfl := some.inj hs₁
    have hrow₂ : (st.deleteFriendshipByRoomID ev.roomID).getFriendshipByRoomID f₂.roomID =
        some f₂ := by
      obtain ⟨hrow, -, -, hne⟩ := glare_eq_some hglare
      rw [get_delete, if_neg hne.symm]
      exact hrow
    exact .joinedOther f₂ _ e₁ e₂ rfl hlocal hglare h₁ h₂ rfl writes_delete
      (writes_replace hs₂ hrow₂ rfl)
  | none =>
    rw [show Option.filter _ (st.getFriendshipByFcIDAndToFcID stateKey ev.sender) = _
      from hglare] at h
    obtain ⟨f₁, hf₁, hin⟩ := require_bind_eq_ok.mp h
    have hnormal : stateOf f₁ ev.sender ≠ .invite →
        handleNormalMembership p ev st = (.ok evs, st') →
        Outcome p ev stateKey "invite" st st' evs := by
      intro hne hin
      refine .normal (normal_outcome hev hin) (fun _ => hglare) fun _ _ f hf => ?_
      rwa [← some.inj (hf₁.symm.trans hf)]
    have hjoin : ∀ {f'}, (do
          update f'
          let e ← p.buildEvent 0 ev.sender ev.roomID ev.sender "join"
          return [e] : Handler (List Event)) st = (.ok evs, st') →
        f'.roomID = f₁.roomID → stateOf f₁ ev.sender = .invite →
        f'.view = (if ev.sender = f₁.fcID then { f₁.view with fcIDState := .join }
          else { f₁.view with toFcIDState := .join }) →
        Outcome p ev stateKey "invite" st st' evs := by
      intro f' hin hroom hst hview
      obtain ⟨s₁, hs₁, hin₁⟩ := commit_bind_eq_ok.mp hin
      obtain ⟨e, he, hret⟩ := buildEvent_bind_eq_ok hin₁
      obtain ⟨rfl, rfl⟩ := pure_eq_ok.mp hret
      exact .joinedOwn f₁ e rfl hlocal hglare hf₁ hst he rfl (hview ▸ writes_replace hs₁ hf₁ hroom)
    split_ifs at hin with hc hst hst
    · exact hjoin hin rfl (by rw [stateOf, if_pos hc, hst]) (by rw [if_pos hc]; rfl)
    · exact hnormal (by rwa [stateOf, if_pos hc]) hin
    · exact hjoin hin rfl (by rw [stateOf, if_neg hc, hst]) (by rw [if_neg hc]; rfl)
    · exact hnormal (by rwa [stateOf, if_neg hc]) hin

theorem fedInvite_outcome (hev : IsMember ev ev.roomID ev.sender stateKey "invite")
    (hlocal : p.isLocal ev.sender = false) (h : handleFedInvite p ev stateKey st = (.ok evs, st')) :
    Outcome p ev stateKey "invite" st st' evs := by
  have hnormal : st.glare ev stateKey = none → handleNormalMembership p ev st = (.ok evs, st') →
      Outcome p ev stateKey "invite" st st' evs := fun hglare hin =>
    .normal (normal_outcome hev hin) (fun _ => hglare) fun _ hl =>
      absurd hl (by rw [hlocal]; decide)
  unfold handleFedInvite at h
  rw [query_bind_eq_ok] at h
  cases hparties : st.getFriendshipByFcIDAndToFcID stateKey ev.sender with
  | none =>
    rw [hparties] at h
    exact hnormal (by rw [glare, hparties]; rfl) h
  | some f₂ =>
    rw [hparties] at h
    dsimp only at h
    have hglare : f₂.roomID ≠ ev.roomID → st.glare ev stateKey = some f₂ := fun hne =>
      filter_eq_some_iff.mpr ⟨hparties, decide_eq_true hne⟩
    split_ifs at h with hne hlt
    · obtain ⟨s₁, hs₁, hin₁⟩ := commit_bind_eq_ok.mp h
      rw [query_bind_eq_ok] at hin₁
      obtain ⟨f₁, hf₁, hin₂⟩ := require_bind_eq_ok.mp hin₁
      obtain ⟨r, -, hin₃⟩ := require_bind_eq_ok.mp hin₂
      obtain ⟨s₂, hs₂, hin₄⟩ := commit_bind_eq_ok.mp hin₃
      obtain ⟨e₁, h₁, hin₅⟩ := buildEvent_bind_eq_ok hin₄
      obtain ⟨e₂, h₂, hret⟩ := buildEvent_bind_eq_ok hin₅
      obtain ⟨rfl, rfl⟩ := pure_eq_ok.mp hret
      obtain rfl := some.inj hs₁
      have hrow : st.getFriendshipByRoomID ev.roomID = some f₁ := by
        rwa [get_delete, if_neg hne] at hf₁
      exact .keptOther f₁ f₂ _ e₁ e₂ rfl hlocal (hglare hne) hlt hrow h₁ h₂ rfl writes_delete
        (writes_replace hs₂ hf₁ (getFriendshipByRoomID_eq_some.mp hrow).2.symm)
    · obtain ⟨s₁, hs₁, hin₁⟩ := commit_bind_eq_ok.mp h
      obtain ⟨e, he, hret⟩ := buildEvent_bind_eq_ok hin₁
      obtain ⟨rfl, rfl⟩ := pure_eq_ok.mp hret
      obtain rfl := some.inj hs₁
      exact .keptOwn f₂ e rfl hlocal (hglare hne) hlt he rfl writes_delete
    · refine hnormal ?_ h
      rw [glare, hparties, filter_some, if_neg (by simpa using hne)]

theorem handleMembership_outcome (hk : ev.stateKey = some stateKey)
    (h : handleMembership p ev st = (.ok evs, st')) :
    ∃ op, IsMember ev ev.roomID ev.sender stateKey op ∧ Outcome p ev stateKey op st st' evs := by
  obtain ⟨op, s₁, hm, hin⟩ := bind_eq_ok.mp h
  obtain rfl := reads_membership.eq hm
  have hev := isMember_of_membership hm hk
  refine ⟨op, hev, ?_⟩
  split_ifs at hin with hop
  · subst hop
    rw [handleInvite, hk] at hin
    split_ifs at hin with hl
    · exact localInvite_outcome hev hl hin
    · exact fedInvite_outcome hev (Bool.eq_false_iff.mpr hl) hin
  · exact .normal (normal_outcome hev hin) (fun h => absurd h hop) fun h => absurd h hop

/-! ## What the processor returns -/

def AllMembers (evs : List Event) : Prop := ∀ e ∈ evs, e.type = MRoomMember

theorem NormalOutcome.allMembers (hev : IsMember ev ev.roomID ev.sender stateKey op)
    (h : NormalOutcome p ev stateKey op st st' evs) : AllMembers evs := by
  intro e he
  cases h with
  | noRow _ _ hevs | ignored _ _ _ _ hevs | moved _ _ _ _ _ hevs =>
    rw [hevs, mem_singleton] at he
    exact he ▸ hev.type
  | rejoined _ e₁ e₂ invites _ _ h₁ h₂ hinvites hevs =>
    rw [hevs, mem_cons, mem_cons] at he
    rcases he with rfl | rfl | he
    · exact h₁.type
    · exact h₂.type
    · exact (hinvites.member he).type

theorem Outcome.allMembers (hev : IsMember ev ev.roomID ev.sender stateKey op)
    (h : Outcome p ev stateKey op st st' evs) : AllMembers evs := by
  cases h with
  | normal h => exact h.allMembers hev
  | joinedOther _ _ _ _ _ _ _ h₁ h₂ hevs | keptOther _ _ _ _ _ _ _ _ _ _ h₁ h₂ hevs =>
    simp [AllMembers, hevs, h₁.type, h₂.type]
  | joinedOwn _ _ _ _ _ _ _ he hevs | keptOwn _ _ _ _ _ _ he hevs =>
    simp [AllMembers, hevs, he.type]

theorem handleMembership_none (hk : ev.stateKey = none) (st : Store) :
    handleMembership p ev st ≠ (.ok evs, st') := by
  intro h
  obtain ⟨m, s, -, h⟩ := bind_eq_ok.mp h
  split_ifs at h
  · rw [handleInvite, hk] at h
    cases h
  · rw [handleNormalMembership, hk] at h
    cases h

theorem handleEvent_ne_create (ht : ev.type ≠ MRoomCreate)
    (h : handleEvent p ev st = (.ok evs, st')) : ∀ e ∈ evs, e.type ≠ MRoomCreate := by
  unfold handleEvent at h
  rw [if_neg ht] at h
  split_ifs at h
  · cases hk : ev.stateKey with
    | none => exact absurd h (handleMembership_none hk st)
    | some stateKey =>
      obtain ⟨op, hev, hout⟩ := handleMembership_outcome hk h
      intro e he
      rw [hout.allMembers hev e he]
      decide
  · obtain ⟨rfl, -⟩ := pure_eq_ok.mp h
    simpa using ht

/-! ## Invites of two users -/

theorem writes_localInvite (hev : IsMember ev roomID u v "invite")
    (hl : p.isLocal u = true) (huv : v ≠ u) (hrow : st.view roomID = some ⟨u, "", .join, .init⟩)
    (hno : st.getFriendshipByFcIDAndToFcID v u = none) (h : handleEvent p ev st = (.ok evs, st')) :
    evs = [ev] ∧ Writes st st' roomID (some ⟨u, v, .join, .invite⟩) := by
  obtain rfl := hev.roomID
  obtain rfl := hev.sender
  have hin := handleEvent_invite hev h
  rw [if_pos hl] at hin
  have hnone : st.glare ev v = none := by rw [glare, hno]; rfl
  obtain ⟨f, hf, -, hview⟩ := exists_of_view hrow
  have hfc : f.fcID = ev.sender := congrArg View.fcID hview
  have hsender : stateOf f ev.sender = .join := by
    rw [stateOf, if_pos hfc.symm]
    exact congrArg View.fcIDState hview
  have hkey : stateOf f v = .init := by
    rw [stateOf, if_neg fun hv => huv (hv.trans hfc)]
    exact congrArg View.toFcIDState hview
  cases localInvite_outcome hev hl hin with
  | normal hn _ _ =>
    cases hn with
    | noRow hrow' => exact absurd (hf.symm.trans hrow') (by simp)
    | ignored g hg _ hop =>
      obtain rfl := some.inj (hf.symm.trans hg)
      exact absurd (hkey.symm.trans (text_eq_invite hop)) (by decide)
    | moved g s hg _ hop hevs hst =>
      obtain rfl := some.inj (hf.symm.trans hg)
      obtain rfl := text_eq_invite hop
      rw [hview, View.set, if_neg huv] at hst
      exact ⟨hevs, hst⟩
    | rejoined g _ _ _ hg hr =>
      obtain rfl := some.inj (hf.symm.trans hg)
      exact absurd (hsender.symm.trans hr.2.1) (by decide)
  | joinedOther f₂ _ _ _ _ _ hglare => exact absurd (hnone.symm.trans hglare) (by simp)
  | joinedOwn g _ _ _ _ hg hinv =>
    obtain rfl := some.inj (hf.symm.trans hg)
    exact absurd (hsender.symm.trans hinv) (by decide)
  | keptOther _ _ _ _ _ _ hremote | keptOwn _ _ _ hremote =>
    exact absurd (hl.symm.trans hremote) (by decide)

section
variable (hev : IsMember ev roomID u v "invite") (hl : p.isLocal u = false)
  (hf₂ : st.getFriendshipByFcIDAndToFcID v u = some f₂)
include hev hl hf₂

theorem fedInvite_of_glare (hne : f₂.roomID ≠ roomID) (h : handleEvent p ev st = (.ok evs, st')) :
    (roomID < f₂.roomID ∧ ∃ f₁ st₁ e₁ e₂, st.getFriendshipByRoomID roomID = some f₁ ∧
      evs = [e₁, e₂] ∧ IsMember e₁ f₂.roomID v v "leave" ∧ IsMember e₂ roomID v v "join" ∧
      Writes st st₁ f₂.roomID none ∧ Writes st₁ st' roomID (some ⟨u, v, f₁.fcIDState, .join⟩)) ∨
    (¬ roomID < f₂.roomID ∧
      ∃ e, evs = [e] ∧ IsMember e roomID v v "leave" ∧ Writes st st' roomID none) := by
  obtain rfl := hev.roomID
  obtain rfl := hev.sender
  have hin := handleEvent_invite hev h
  rw [if_neg (by simp [hl])] at hin
  have hglare : st.glare ev v = some f₂ :=
    filter_eq_some_iff.mpr ⟨hf₂, decide_eq_true hne⟩
  cases fedInvite_outcome hev hl hin with
  | normal _ hnone => exact absurd ((hnone rfl).symm.trans hglare) (by simp)
  | joinedOther _ _ _ _ _ hlocal | joinedOwn _ _ _ hlocal =>
    exact absurd (hl.symm.trans hlocal) (by decide)
  | keptOther f₁ g st₁ e₁ e₂ _ _ hg hlt hrow h₁ h₂ hevs hst₁ hst =>
    obtain rfl := some.inj (hglare.symm.trans hg)
    exact .inl ⟨hlt, f₁, st₁, e₁, e₂, hrow, hevs, h₁, h₂, hst₁, hst⟩
  | keptOwn g e _ _ hg hlt he hevs hst =>
    obtain rfl := some.inj (hglare.symm.trans hg)
    exact .inr ⟨hlt, e, hevs, he, hst⟩

theorem fedInvite_of_lt (hlt : roomID < f₂.roomID)
    (hrow : st.view roomID = some ⟨u, "", .join, .init⟩)
    (h : handleEvent p ev st = (.ok evs, st')) :
    ∃ e₁ e₂, evs = [e₁, e₂] ∧ IsMember e₁ f₂.roomID v v "leave" ∧ IsMember e₂ roomID v v "join" ∧
      ∃ st₁, Writes st st₁ f₂.roomID none ∧ Writes st₁ st' roomID (some ⟨u, v, .join, .join⟩) := by
  have hne : f₂.roomID ≠ roomID := fun he => String.lt_irrefl _ (he ▸ hlt)
  rcases fedInvite_of_glare hev hl hf₂ hne h with
    ⟨-, f₁, st₁, e₁, e₂, hf₁, hevs, h₁, h₂, hst₁, hst⟩ | ⟨hnot, -⟩
  · obtain ⟨f, hf, -, hview⟩ := exists_of_view hrow
    obtain rfl := some.inj (hf₁.symm.trans hf)
    rw [show f₁.fcIDState = .join from congrArg View.fcIDState hview] at hst
    exact ⟨e₁, e₂, hevs, h₁, h₂, st₁, hst₁, hst⟩
  · exact absurd hlt hnot

theorem fedInvite_of_not_lt (hne : f₂.roomID ≠ roomID)
    (hlt : ¬ roomID < f₂.roomID) (h : handleEvent p ev st = (.ok evs, st')) :
    ∃ e, evs = [e] ∧ IsMember e roomID v v "leave" ∧ Writes st st' roomID none := by
  rcases fedInvite_of_glare hev hl hf₂ hne h with ⟨hlt', -⟩ | ⟨-, he⟩
  · exact absurd hlt' hlt
  · exact he

end

end Ligase.Rcs
