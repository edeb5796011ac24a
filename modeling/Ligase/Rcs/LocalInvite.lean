import Ligase.Rcs.Outcomes

/-!
# The effect of a local invite

A user of this server invites the other party of a direct room.

* **`takesEffect_iff`**: when the other party is recorded as invited or joined and is told.
-/

namespace Ligase.Rcs

open Lib Auth Proc Store Option

/-! ## The recorded state -/

def View.recorded (v : View) (user : String) : Option St :=
  if user = v.fcID then some v.fcIDState else if user = v.toFcID then some v.toFcIDState else none

/-- The state of a user in the row of a room, if it is one of its parties. -/
def Store.recorded (st : Store) (roomID user : String) : Option St :=
  (st.view roomID).bind (·.recorded user)

def Store.Invited (st : Store) (roomID user : String) : Prop :=
  st.recorded roomID user = some .invite ∨ st.recorded roomID user = some .join

def Told (evs : List Event) (user : String) : Prop :=
  ∃ e ∈ evs, ∃ roomID sender op, IsMember e roomID sender user op ∧ (op = "invite" ∨ op = "join")

def Store.keptRoom (st : Store) (ev : Event) (stateKey : String) : String :=
  match st.glare ev stateKey with
  | some f₂ => f₂.roomID
  | none => ev.roomID

def TakesEffect (st st' : Store) (evs : List Event) (roomID user : String) : Prop :=
  st'.Invited roomID user ∧ (st.Invited roomID user ∨ Told evs user)

/-- The row is of the sender and the other user, or the sender has made it and there is no other
party yet. -/
def OtherParty (f : RCSFriendship) (sender user : String) : Prop :=
  (sender = f.fcID ∧ user = f.toFcID) ∨ (sender = f.toFcID ∧ user = f.fcID) ∨
    (sender = f.fcID ∧ f.toFcID = "" ∧ f.toFcIDState = .init)

section
variable {p : Processor} {ev e : Event} {stateKey roomID user sender : String}
  {st st' st₁ : Store} {evs : List Event} {f f₂ : RCSFriendship} {v : View}

theorem recorded_of_view (h : st.view roomID = some v) :
    st.recorded roomID user = v.recorded user := by rw [Store.recorded, h]; rfl

theorem recorded_of_row (h : st.getFriendshipByRoomID roomID = some f) :
    st.recorded roomID user = f.view.recorded user :=
  recorded_of_view (by rw [Store.view, h]; rfl)

section
variable (h : OtherParty f sender user) (hne : user ≠ sender)
include h hne

theorem OtherParty.recorded (huser : user ≠ "") : f.view.recorded user = some (stateOf f user) ∨
      (f.view.recorded user = none ∧ stateOf f user = .init) := by
  unfold View.recorded stateOf
  rcases h with ⟨rfl, rfl⟩ | ⟨rfl, rfl⟩ | ⟨rfl, hto, hinit⟩
  · simp [RCSFriendship.view, hne]
  · simp [RCSFriendship.view]
  · simp [RCSFriendship.view, hne, hto, huser, hinit]

theorem OtherParty.recorded_sender : f.view.recorded sender = some (stateOf f sender) := by
  unfold View.recorded stateOf
  rcases h with ⟨rfl, rfl⟩ | ⟨rfl, rfl⟩ | ⟨rfl, -⟩
  · simp [RCSFriendship.view]
  · simp [RCSFriendship.view, hne.symm]
  · simp [RCSFriendship.view]

theorem OtherParty.recorded_setStates (huser : user ≠ "") (own other : St) :
    (f.view.setStates sender own other).recorded user =
      (f.view.recorded user).map fun _ => other := by
  unfold View.recorded View.setStates
  rcases h with ⟨rfl, rfl⟩ | ⟨rfl, rfl⟩ | ⟨rfl, hto, -⟩
  · simp [RCSFriendship.view, hne]
  · simp [RCSFriendship.view, hne.symm]
  · simp [RCSFriendship.view, hne, hto, huser]

theorem OtherParty.recorded_own (huser : user ≠ "") (own : St) :
    View.recorded (if sender = f.fcID then { f.view with fcIDState := own }
      else { f.view with toFcIDState := own }) user = f.view.recorded user := by
  unfold View.recorded
  rcases h with ⟨rfl, rfl⟩ | ⟨rfl, rfl⟩ | ⟨rfl, hto, -⟩
  · simp [RCSFriendship.view, hne]
  · simp [RCSFriendship.view, hne.symm]
  · simp [RCSFriendship.view, hne, hto, huser]

end

theorem recorded_set : (v.set user .invite).recorded user = some .invite := by
  unfold View.set View.recorded
  by_cases h : user = v.fcID <;> simp [h]

theorem not_told_of_sender (hne : user ≠ sender)
    (h : ∀ e ∈ evs, e.stateKey = some sender) : ¬ Told evs user := by
  rintro ⟨e, he, roomID, sender', op, hm, -⟩
  exact hne (some.inj (hm.stateKey.symm.trans (h e he)))

theorem takesEffect_of_same (hsame : st'.recorded roomID user = st.recorded roomID user)
    (hnot : ¬ Told evs user) : TakesEffect st st' evs roomID user ↔ st.Invited roomID user := by
  unfold TakesEffect
  rw [or_iff_left hnot, show st'.Invited roomID user ↔ st.Invited roomID user by
    rw [Store.Invited, Store.Invited, hsame], and_self]

/-! ## The outcomes -/

theorem takesEffect_rejoined {e₁ e₂ : Event} {invites : List Event}
    (hrow : st.getFriendshipByRoomID ev.roomID = some f) (ho : OtherParty f ev.sender stateKey)
    (hne : stateKey ≠ ev.sender) (hkey : stateKey ≠ "")
    (h₁ : IsMember e₁ ev.roomID ev.sender ev.sender "invite")
    (h₂ : IsMember e₂ ev.roomID ev.sender ev.sender "join")
    (hinvites : InvitedBack ev stateKey (stateOf f stateKey) invites) (hst : Writes st st' ev.roomID
      (some (f.view.setStates ev.sender .join (stateOf f stateKey).invitedBack))) :
    TakesEffect st st' (e₁ :: e₂ :: invites) ev.roomID stateKey ↔
      st.Invited ev.roomID stateKey ∨ st.recorded ev.roomID stateKey = some .leave := by
  have hafter : st'.recorded ev.roomID stateKey =
      (st.recorded ev.roomID stateKey).map fun _ => (stateOf f stateKey).invitedBack := by
    rw [recorded_of_view hst.row, ho.recorded_setStates hne hkey, recorded_of_row hrow]
  unfold InvitedBack at hinvites
  unfold St.invitedBack at hafter
  by_cases hleave : stateOf f stateKey = .leave
  · -- who has left is invited
    rw [if_pos hleave] at hinvites hafter
    obtain ⟨e₃, rfl, h₃⟩ := hinvites
    have hold : st.recorded ev.roomID stateKey = some .leave := by
      rcases ho.recorded hne hkey with hs | ⟨-, hs⟩
      · rw [recorded_of_row hrow, hs, hleave]
      · exact absurd (hs.symm.trans hleave) (by decide)
    refine iff_of_true ⟨.inl (by rw [hafter, hold]; rfl), .inr ?_⟩ (.inr hold)
    exact ⟨e₃, by simp, ev.roomID, ev.sender, "invite", h₃, .inl rfl⟩
  · -- for anybody else nothing changes
    rw [if_neg hleave] at hinvites
    simp only [if_neg hleave] at hafter
    subst hinvites
    have hsame : st'.recorded ev.roomID stateKey = st.recorded ev.roomID stateKey := by
      rw [hafter, recorded_of_row hrow]
      rcases ho.recorded hne hkey with hs | ⟨hs, -⟩ <;> rw [hs] <;> rfl
    have hnot : ¬ Told [e₁, e₂] stateKey :=
      not_told_of_sender hne (by simp [h₁.stateKey, h₂.stateKey])
    rw [takesEffect_of_same hsame hnot]
    refine (or_iff_left fun hl => hleave ?_).symm
    rw [recorded_of_row hrow] at hl
    rcases ho.recorded hne hkey with hs | ⟨hs, -⟩
    · exact some.inj (hs.symm.trans hl)
    · exact absurd (hs.symm.trans hl) (by simp)

theorem takesEffect_joinedOther {e₁ e₂ : Event} (hne : stateKey ≠ ev.sender)
    (hglare : st.glare ev stateKey = some f₂)
    (h₁ : IsMember e₁ ev.roomID ev.sender ev.sender "leave")
    (h₂ : IsMember e₂ f₂.roomID ev.sender ev.sender "join")
    (hst : Writes st₁ st' f₂.roomID (some { f₂.view with toFcIDState := .join })) :
    TakesEffect st st' [e₁, e₂] f₂.roomID stateKey ↔ st.Invited f₂.roomID stateKey := by
  obtain ⟨hrow, hfc, -, -⟩ := glare_eq_some hglare
  refine takesEffect_of_same ?_ (not_told_of_sender hne (by simp [h₁.stateKey, h₂.stateKey]))
  rw [recorded_of_view hst.row, recorded_of_row hrow]
  simp [View.recorded, RCSFriendship.view, hfc]

theorem takesEffect_joinedOwn (hrow : st.getFriendshipByRoomID ev.roomID = some f)
    (ho : OtherParty f ev.sender stateKey) (hne : stateKey ≠ ev.sender) (hkey : stateKey ≠ "")
    (he : IsMember e ev.roomID ev.sender ev.sender "join")
    (hst : Writes st st' ev.roomID (some (if ev.sender = f.fcID
      then { f.view with fcIDState := .join } else { f.view with toFcIDState := .join }))) :
    TakesEffect st st' [e] ev.roomID stateKey ↔ st.Invited ev.roomID stateKey := by
  refine takesEffect_of_same ?_ (not_told_of_sender hne (by simp [he.stateKey]))
  rw [recorded_of_view hst.row, ho.recorded_own hne hkey, recorded_of_row hrow]

theorem told_self (hev : IsMember ev ev.roomID ev.sender stateKey "invite") : Told [ev] stateKey :=
  ⟨ev, List.mem_singleton_self ev, ev.roomID, ev.sender, "invite", hev, .inl rfl⟩

/-- Where the sender joins instead, the other party has been invited or has joined; if both have
left, the other party is invited too. -/
def TargetThere (st : Store) (ev : Event) (stateKey : String) : Prop :=
  match st.glare ev stateKey with
  | some f₂ => st.Invited f₂.roomID stateKey
  | none =>
    (st.recorded ev.roomID ev.sender = some .invite → st.Invited ev.roomID stateKey) ∧
      (st.recorded ev.roomID ev.sender = some .leave → st.Invited ev.roomID stateKey ∨
        st.recorded ev.roomID stateKey = some .leave)

variable (hev : IsMember ev ev.roomID ev.sender stateKey "invite")
  (hlocal : p.isLocal ev.sender = true) (hne : stateKey ≠ ev.sender) (hkey : stateKey ≠ "")
  (ho : ∀ f, st.getFriendshipByRoomID ev.roomID = some f → OtherParty f ev.sender stateKey)
include hev hlocal hne hkey ho

theorem takesEffect_normal (h : NormalOutcome p ev stateKey "invite" st st' evs) :
    TakesEffect st st' evs ev.roomID stateKey ↔
      (st.recorded ev.roomID ev.sender = some .leave → st.Invited ev.roomID stateKey ∨
        st.recorded ev.roomID stateKey = some .leave) := by
  have hsender : ∀ {f}, st.getFriendshipByRoomID ev.roomID = some f →
      (st.recorded ev.roomID ev.sender = some .leave ↔ stateOf f ev.sender = .leave) := by
    intro f hf
    rw [recorded_of_row hf, (ho f hf).recorded_sender hne, some.injEq]
  have hstays : ∀ {f}, ¬ Rejoins p ev stateKey "invite" f → stateOf f ev.sender ≠ .leave :=
    fun hr hl => hr ⟨hlocal, hl, rfl, hne.symm⟩
  cases h with
  | noRow _ hop => exact absurd hop (by decide)
  | ignored f hf hr hop hevs hst =>
    subst hevs hst
    refine iff_of_true ?_ fun hl => absurd ((hsender hf).mp hl) (hstays hr)
    have hinv : st'.recorded ev.roomID stateKey = some .invite := by
      rcases (ho f hf).recorded hne hkey with hs | ⟨-, hs⟩
      · rw [recorded_of_row hf, hs, text_eq_invite hop]
      · exact absurd (hs.symm.trans (text_eq_invite hop)) (by decide)
    exact ⟨.inl hinv, .inl (.inl hinv)⟩
  | moved f s hf hr hop hevs hst =>
    subst hevs
    obtain rfl := text_eq_invite hop
    refine iff_of_true ⟨.inl ?_, .inr (told_self hev)⟩ fun hl =>
      absurd ((hsender hf).mp hl) (hstays hr)
    rw [recorded_of_view hst.row, recorded_set]
  | rejoined f e₁ e₂ invites hf hr h₁ h₂ hinvites hevs hst =>
    subst hevs
    rw [takesEffect_rejoined hf (ho f hf) hne hkey h₁ h₂ hinvites hst]
    exact ⟨fun h _ => h, fun h => h ((hsender hf).mpr hr.2.1)⟩

/-- **A local invite takes effect, exactly if the other party is there** where the sender joins. -/
theorem takesEffect_iff (h : handleLocalInvite p ev stateKey st = (.ok evs, st')) :
    TakesEffect st st' evs (st.keptRoom ev stateKey) stateKey ↔ TargetThere st ev stateKey := by
  unfold Store.keptRoom TargetThere
  cases localInvite_outcome hev hlocal h with
  | joinedOther f₂ st₁ e₁ e₂ _ _ hglare h₁ h₂ hevs hst₁ hst =>
    subst hevs
    rw [hglare]
    exact takesEffect_joinedOther hne hglare h₁ h₂ hst
  | joinedOwn f e _ _ hglare hrow hsender he hevs hst =>
    subst hevs
    have hs : st.recorded ev.roomID ev.sender = some .invite := by
      rw [recorded_of_row hrow, (ho f hrow).recorded_sender hne, hsender]
    rw [hglare]
    rw [takesEffect_joinedOwn hrow (ho f hrow) hne hkey he hst, hs]
    simp
  | normal hn hglare hstate =>
    rw [hglare rfl]
    rw [takesEffect_normal hev hlocal hne hkey ho hn]
    refine (and_iff_right fun hs => ?_).symm
    cases hf : st.getFriendshipByRoomID ev.roomID with
    | none => simp [Store.recorded, Store.view, hf] at hs
    | some f =>
      rw [recorded_of_row hf, (ho f hf).recorded_sender hne] at hs
      exact absurd (some.inj hs) (hstate rfl hlocal f hf)
  | keptOther _ _ _ _ _ _ hremote | keptOwn _ _ _ hremote =>
    exact absurd (hlocal.symm.trans hremote) (by decide)

end

theorem takesEffect_alice :
    ∃ st' evs, handleLocalInvite serverX (memberEv "$3:x" "!r:x" "@a:x" "@b:x" "invite") "@b:x"
        (tableAfter (bobInvited.take 2)) = (.ok evs, st') ∧
      TakesEffect (tableAfter (bobInvited.take 2)) st' evs "!r:x" "@b:x" := by
  have h : handleLocalInvite serverX (memberEv "$3:x" "!r:x" "@a:x" "@b:x" "invite") "@b:x"
      (tableAfter (bobInvited.take 2)) = (.ok _, _) := rfl
  have hev : IsMember (memberEv "$3:x" "!r:x" "@a:x" "@b:x" "invite") "!r:x" "@a:x" "@b:x"
      "invite" := ⟨rfl, rfl, rfl, rfl, _, rfl, rfl⟩
  refine ⟨_, _, h, (takesEffect_iff hev (by decide) (by decide) (by decide) ?_ h).mpr ?_⟩
  · intro f hf
    obtain rfl := some.inj hf
    exact .inr (.inr ⟨rfl, rfl, rfl⟩)
  · exact ⟨fun hs => absurd hs (by decide), fun hs => absurd hs (by decide)⟩

/-! ## An invite that is lost -/

/-- Bob makes a room, invites Alice and leaves; then Alice makes one too. -/
def bobLeft : List Call :=
  [.create (createEv "$1:x" "!s:x" "@b:x"),
    .membership serverX (memberEv "$2:x" "!s:x" "@b:x" "@b:x" "join"),
    .membership serverX (memberEv "$3:x" "!s:x" "@b:x" "@a:x" "invite"),
    .membership serverX (memberEv "$4:x" "!s:x" "@b:x" "@b:x" "leave"),
    .create (createEv "$5:x" "!r:x" "@a:x"),
    .membership serverX (memberEv "$6:x" "!r:x" "@a:x" "@a:x" "join")]

def bobBack : Event := memberEv "$7:x" "!r:x" "@a:x" "@b:x" "invite"

/-- Alice gives up the own room and joins the one that Bob has left; Bob is not recorded as invited
to it, and no event says so. -/
theorem invite_lost :
    run Call.step .empty bobLeft = some (tableAfter bobLeft) ∧
      (tableAfter bobLeft).view "!s:x" = some ⟨"@b:x", "@a:x", .leave, .invite⟩ ∧
      (tableAfter bobLeft).view "!r:x" = some ⟨"@a:x", "", .join, .init⟩ ∧
      ∃ st' evs, handleLocalInvite serverX bobBack "@b:x" (tableAfter bobLeft) = (.ok evs, st') ∧
        evs.map (fun e => (e.roomID, e.stateKey, textOf e)) =
          [("!r:x", some "@a:x", some "leave"), ("!s:x", some "@a:x", some "join")] ∧
        st'.view "!r:x" = none ∧
        st'.view "!s:x" = some ⟨"@b:x", "@a:x", .leave, .join⟩ ∧
        ¬ TakesEffect (tableAfter bobLeft) st' evs "!s:x" "@b:x" := by
  refine ⟨rfl, rfl, rfl, _, _, rfl, by decide +kernel, rfl, rfl, fun h => ?_⟩
  rcases h.1 with h | h
  all_goals exact absurd h (by decide)

end Ligase.Rcs
