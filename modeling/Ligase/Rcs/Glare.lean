import Ligase.Rcs.Outcomes

/-!
# Glare

Two users of two servers make a room each and invite each other before they see the other invite.

* **`glare_converges`**: both servers end with the same room.
-/

namespace Ligase.Rcs

open Lib Auth Proc Store List Option Function

/-! ## Two servers -/

/-- Two users of two servers, and the events with which they make their rooms and invite each other.
-/
structure Scenario where
  user : Bool → String
  room : Bool → String
  serverName : Bool → List String
  create : Bool → Event
  join : Bool → Event
  invite : Bool → Event
  user_ne : ∀ s, user s ≠ ""
  isLocal : ∀ s, Client.domainOf (user s) ∈ serverName s
  isRemote : ∀ s, Client.domainOf (user s) ∉ serverName !s
  create_type : ∀ s, (create s).type = MRoomCreate
  create_room : ∀ s, (create s).roomID = room s
  create_sender : ∀ s, (create s).sender = user s
  join_spec : ∀ s, IsMember (join s) (room s) (user s) (user s) "join"
  invite_spec : ∀ s, IsMember (invite s) (room s) (user s) (user !s) "invite"

namespace Scenario

def script (S : Scenario) (s : Bool) : List Event := [S.create s, S.join s, S.invite s]

structure State where
  store : Bool → Store
  done : Bool → Nat
  chan : Bool → Bool → List Event

inductive Label where
  | act (s : Bool) (nid : Nat → Int)
  | recv (s r : Bool) (nid : Nat → Int)

variable (S : Scenario)

/-- The events of a room that a server sends to the other one: those of its own user. -/
def sent (s r : Bool) (evs : List Event) : List Event :=
  evs.filter fun e => Client.domainOf e.sender ∈ S.serverName s ∧ e.roomID = S.room r

def handle (σ : State) (s : Bool) (nid : Nat → Int) (ev : Event) : Option State :=
  match handleEvent ⟨S.serverName s, nid⟩ ev (σ.store s) with
  | (.ok evs, st) => some { σ with
      store := Function.update σ.store s st
      chan := Function.update σ.chan (!s) fun r => σ.chan (!s) r ++ S.sent s r evs }
  | (.error _, _) => none

def isInvite (ev : Event) : Bool :=
  match newMemberContentFromEvent ev with
  | .ok c => ev.type = MRoomMember && c.membership = "invite"
  | .error _ => false

/-- The events of a room come in their order. A server sees the other invite when its own user has
invited. -/
def step (σ : State) : Label → Option State
  | .act s nid =>
    match (S.script s)[σ.done s]? with
    | none => none
    | some ev => (S.handle σ s nid ev).map fun σ' =>
        { σ' with done := Function.update σ'.done s (σ.done s + 1) }
  | .recv s r nid =>
    match σ.chan s r with
    | [] => none
    | ev :: evs =>
      if isInvite ev ∧ σ.done s < (S.script s).length then none
      else S.handle { σ with chan := Function.update σ.chan s (Function.update (σ.chan s) r evs) } s
        nid ev

/-- Nothing has happened; the tables have no row of the two users. -/
structure Start (σ : State) : Prop where
  store : ∀ s, ∀ f ∈ (σ.store s).rows, parties f ≠ s(S.user true, S.user false)
  done : ∀ s, σ.done s = 0
  chan : ∀ s r, σ.chan s r = []

structure Quiet (σ : State) : Prop where
  done : ∀ s, σ.done s = (S.script s).length
  chan : ∀ s r, σ.chan s r = []

/-! ## One table -/

def pair : Sym2 String := s(S.user true, S.user false)

variable {r : Bool} {v : Option View} {f : RCSFriendship} {l : List Event}

theorem pair_eq (s : Bool) : s(S.user s, S.user !s) = S.pair := by
  cases s
  · exact Sym2.eq_swap
  · rfl

variable {S} {w s : Bool} {st st' : Store} {n h e : Nat}

theorem user_ne_not (s : Bool) : S.user (!s) ≠ S.user s := fun he =>
  S.isRemote s (by rw [← he]; exact S.isLocal (!s))

theorem room_ne (hw : S.room w < S.room !w) (s : Bool) : S.room (!s) ≠ S.room s := by
  have hne : S.room w ≠ S.room !w := fun he => String.lt_irrefl _ (he ▸ hw)
  cases s <;> cases w <;> first | exact hne | exact hne.symm

theorem not_isLocal (s : Bool) (nid : Nat → Int) :
    Processor.isLocal ⟨S.serverName s, nid⟩ (S.user !s) = false := by
  have := S.isRemote (!s)
  simpa [Processor.isLocal] using this

variable (S) in
def Opened (st : Store) (s : Bool) : Nat → Prop
  | 0 => ∀ f, st.getFriendshipByRoomID (S.room s) = some f → parties f ≠ S.pair
  | 1 => st.view (S.room s) = some ⟨S.user s, "", .init, .init⟩
  | _ => st.view (S.room s) = some ⟨S.user s, "", .join, .init⟩

variable (S w) in
/-- The row of the own room once the other user is invited, after `h` events of the other room and
`e` answers. The room of `w` stays. -/
def ownRow (s : Bool) (h e : Nat) : Option View :=
  if s = w then some ⟨S.user s, S.user !s, .join, if e = 0 then .invite else .join⟩
  else if h < 3 then some ⟨S.user s, S.user !s, .join, if e = 0 then .invite else .leave⟩
  else none

variable (S w) in
def otherRow (s : Bool) : Option View :=
  if s = w then none else some ⟨S.user !s, S.user s, .join, .join⟩

variable (S w) in
/-- The table of a server after `n` events of its user, `h` of the other room, and `e` answers. -/
structure StoreAt (s : Bool) (st : Store) (n h e : Nat) : Prop where
  own : n < 3 → S.Opened st s n
  invited : 3 ≤ n → st.view (S.room s) = S.ownRow w s h e
  other : h < 3 → S.Opened st (!s) h
  seen : 3 ≤ h → st.view (S.room !s) = S.otherRow w s
  pairs : ∀ f ∈ st.rows, parties f = S.pair → ∃ r, f.roomID = S.room r

theorem Opened.of_get (ho : S.Opened st r n)
    (hg : st'.getFriendshipByRoomID (S.room r) = st.getFriendshipByRoomID (S.room r)) :
    S.Opened st' r n := by
  have hv : st'.view (S.room r) = st.view (S.room r) := congrArg _ hg
  match n, ho with
  | 0, ho => exact fun f hf => ho f (hg ▸ hf)
  | 1, ho => exact hv.trans ho
  | _ + 2, ho => exact hv.trans ho

theorem pairs_of_writes (hp : ∀ f ∈ st.rows, parties f = S.pair → ∃ r, f.roomID = S.room r)
    (hw : Writes st st' (S.room r) v) :
    ∀ f ∈ st'.rows, parties f = S.pair → ∃ r, f.roomID = S.room r := by
  intro f hf hpair
  by_cases hr : f.roomID = S.room r
  · exact ⟨r, hr⟩
  · have hget := getFriendshipByRoomID_eq_some.mpr ⟨hf, rfl⟩
    rw [hw.others _ hr] at hget
    exact hp f (getFriendshipByRoomID_eq_some.mp hget).1 hpair

theorem StoreAt.writeOwn {n' e' : Nat} (ha : S.StoreAt w s st n h e)
    (hne : S.room (!s) ≠ S.room s) (hw : Writes st st' (S.room s) v)
    (hown : n' < 3 → S.Opened st' s n') (hinv : 3 ≤ n' → v = S.ownRow w s h e') :
    S.StoreAt w s st' n' h e' where
  own := hown
  invited hn := hw.row.trans (hinv hn)
  other hh := (ha.other hh).of_get (hw.others _ hne)
  seen hh := (congrArg _ (hw.others _ hne)).trans (ha.seen hh)
  pairs := pairs_of_writes ha.pairs hw

theorem StoreAt.writeOther {h' : Nat} (ha : S.StoreAt w s st n h e)
    (hne : S.room (!s) ≠ S.room s) (hw : Writes st st' (S.room !s) v)
    (hoth : h' < 3 → S.Opened st' (!s) h') (hseen : 3 ≤ h' → v = S.otherRow w s)
    (hinv : S.ownRow w s h' e = S.ownRow w s h e) : S.StoreAt w s st' n h' e where
  own hn := (ha.own hn).of_get (hw.others _ hne.symm)
  invited hn := (congrArg _ (hw.others _ hne.symm)).trans ((ha.invited hn).trans hinv.symm)
  other := hoth
  seen hh := hw.row.trans (hseen hh)
  pairs := pairs_of_writes ha.pairs hw

theorem Opened.not_pair (ho : S.Opened st r n) (hf : f ∈ st.rows)
    (hr : f.roomID = S.room r) : parties f ≠ S.pair := by
  have hget := getFriendshipByRoomID_eq_some.mpr ⟨hf, hr⟩
  have hview : ∀ {s₁ s₂ : St}, st.view (S.room r) = some ⟨S.user r, "", s₁, s₂⟩ →
      parties f ≠ S.pair := by
    intro s₁ s₂ hv hp
    obtain ⟨g, hg, -, hview⟩ := exists_of_view hv
    obtain rfl := some.inj (hget.symm.trans hg)
    have hto : f.toFcID = "" := congrArg View.toFcID hview
    have hmem : "" ∈ S.pair := hp ▸ (by rw [parties, hto]; exact Sym2.mem_mk_right _ _)
    rw [pair, Sym2.mem_iff] at hmem
    exact hmem.elim (fun he => S.user_ne _ he.symm) fun he => S.user_ne _ he.symm
  cases n with
  | zero => exact ho f hget
  | succ n =>
    cases n with
    | zero => exact hview ho
    | succ n => exact hview ho

theorem StoreAt.room_of_pair (ha : S.StoreAt w s st n h e) (hh : h < 3)
    (hf : f ∈ st.rows) (hp : parties f = S.pair) : f.roomID = S.room s := by
  obtain ⟨r, hr⟩ := ha.pairs f hf hp
  by_cases hs : r = s
  · rw [hr, hs]
  · obtain rfl := Bool.eq_not_of_ne hs
    exact absurd hp ((ha.other hh).not_pair hf hr)

theorem StoreAt.no_glare (ha : S.StoreAt w s st 2 h e) (hh : h < 3) :
    st.getFriendshipByFcIDAndToFcID (S.user !s) (S.user s) = none := by
  cases hf : st.getFriendshipByFcIDAndToFcID (S.user !s) (S.user s) with
  | none => rfl
  | some f =>
    obtain ⟨hget, hfc, hto⟩ := getFriendshipByFcIDAndToFcID_eq_some hf
    have hp : parties f = S.pair := by rw [parties, hfc, hto, Sym2.eq_swap, pair_eq]
    have hmem := (getFriendshipByRoomID_eq_some.mp hget).1
    exact absurd hp ((ha.own (by omega)).not_pair hmem (ha.room_of_pair hh hmem hp))

theorem StoreAt.glare (ha : S.StoreAt w s st 3 h e) (hh : h < 3) :
    ∃ f, st.getFriendshipByFcIDAndToFcID (S.user s) (S.user !s) = some f ∧ f.roomID = S.room s := by
  obtain ⟨v, hv, hfc, hto⟩ : ∃ v, S.ownRow w s h e = some v ∧ v.fcID = S.user s ∧
      v.toFcID = S.user !s := by
    unfold ownRow
    split_ifs <;> exact ⟨_, rfl, rfl, rfl⟩
  obtain ⟨g, hg, -, rfl⟩ := exists_of_view ((ha.invited (by omega)).trans hv)
  have hgmem := (getFriendshipByRoomID_eq_some.mp hg).1
  cases hf : st.getFriendshipByFcIDAndToFcID (S.user s) (S.user !s) with
  | none =>
    have hno := find?_eq_none.mp hf g hgmem
    exact absurd (decide_eq_true (p := g.fcID = _ ∧ g.toFcID = _) ⟨hfc, hto⟩) hno
  | some f =>
    obtain ⟨hget, hfc, hto⟩ := getFriendshipByFcIDAndToFcID_eq_some hf
    have hp : parties f = S.pair := by rw [parties, hfc, hto, pair_eq]
    exact ⟨f, rfl, ha.room_of_pair hh (getFriendshipByRoomID_eq_some.mp hget).1 hp⟩

/-! ### The own events -/

variable {nid : Nat → Int} {ev : Event} {evs : List Event}

theorem script_spec (hev : (S.script r)[n]? = some ev) :
    ev.sender = S.user r ∧ ev.roomID = S.room r := by
  match n with
  | 0 => obtain rfl := some.inj hev; exact ⟨S.create_sender r, S.create_room r⟩
  | 1 => obtain rfl := some.inj hev; exact ⟨(S.join_spec r).sender, (S.join_spec r).roomID⟩
  | 2 =>
    obtain rfl := some.inj hev
    exact ⟨(S.invite_spec r).sender, (S.invite_spec r).roomID⟩

theorem Opened.advance (ho : S.Opened st r n) (hn : n < 2) (hev : (S.script r)[n]? = some ev)
    (hok : handleEvent ⟨S.serverName s, nid⟩ ev st = (.ok evs, st')) :
    evs = [ev] ∧ ∃ v, Writes st st' (S.room r) v ∧ S.Opened st' r (n + 1) := by
  match n, ho with
  | 0, _ =>
    obtain rfl := some.inj hev
    obtain ⟨hevs, hw⟩ := writes_create (S.create_type r) hok
    rw [S.create_room, S.create_sender] at hw
    exact ⟨hevs, _, hw, hw.row⟩
  | 1, ho =>
    obtain rfl := some.inj hev
    have hok := handleEvent_member (S.join_spec r) (by decide) hok
    obtain ⟨hevs, hw⟩ := writes_normal (t := ⟨.init, "join", .join, .join⟩) (S.join_spec r) ho
      (fun hc => absurd hc.2 (by decide)) (by simp [View.stateOf, transitions]) (by decide) hok
    rw [if_pos rfl] at hw
    exact ⟨hevs, _, hw, hw.row⟩

theorem StoreAt.invite (ha : S.StoreAt w s st 2 h 0) (hh : h < 3) (hne : S.room (!s) ≠ S.room s)
    (hok : handleEvent ⟨S.serverName s, nid⟩ (S.invite s) st = (.ok evs, st')) :
    evs = [S.invite s] ∧ S.StoreAt w s st' 3 h 0 := by
  have hl : Processor.isLocal ⟨S.serverName s, nid⟩ (S.user s) = true :=
    decide_eq_true (S.isLocal s)
  obtain ⟨hevs, hw⟩ := writes_localInvite (S.invite_spec s) hl (user_ne_not s)
    (ha.own (by omega)) (ha.no_glare hh) hok
  refine ⟨hevs, ha.writeOwn hne hw (by omega) fun _ => ?_⟩
  simp only [ownRow, hh, if_true]
  split_ifs <;> rfl

/-! ### The events of the other room -/

theorem StoreAt.otherInvite_stay (ha : S.StoreAt w w st 3 2 e) (hlt : S.room w < S.room !w)
    (hok : handleEvent ⟨S.serverName w, nid⟩ (S.invite !w) st = (.ok evs, st')) :
    ∃ ev, evs = [ev] ∧ IsMember ev (S.room !w) (S.user w) (S.user w) "leave" ∧
      S.StoreAt w w st' 3 3 e := by
  have hne : S.room (!w) ≠ S.room w := fun he => String.lt_irrefl _ (he ▸ hlt)
  obtain ⟨f, hf, hroom⟩ := ha.glare (by omega)
  have hspec := S.invite_spec !w
  rw [Bool.not_not] at hspec
  obtain ⟨ev, hevs, hev, hw⟩ := fedInvite_of_not_lt hspec (not_isLocal w nid) hf
    (by rw [hroom]; exact hne.symm) (by rw [hroom]; exact String.lt_asymm hlt) hok
  refine ⟨ev, hevs, hev, ha.writeOther hne hw (by omega) (fun _ => ?_) ?_⟩
  · exact (if_pos rfl).symm
  · simp only [ownRow, if_true]

theorem StoreAt.otherInvite_yield (hs : s ≠ w) (ha : S.StoreAt w s st 3 2 e)
    (hlt : S.room (!s) < S.room s)
    (hok : handleEvent ⟨S.serverName s, nid⟩ (S.invite !s) st = (.ok evs, st')) :
    ∃ ev₁ ev₂, evs = [ev₁, ev₂] ∧ IsMember ev₁ (S.room s) (S.user s) (S.user s) "leave" ∧
      IsMember ev₂ (S.room !s) (S.user s) (S.user s) "join" ∧ S.StoreAt w s st' 3 3 e := by
  have hne : S.room (!s) ≠ S.room s := fun he => String.lt_irrefl _ (he ▸ hlt)
  obtain ⟨f, hf, hroom⟩ := ha.glare (by omega)
  have hspec := S.invite_spec !s
  rw [Bool.not_not] at hspec
  obtain ⟨ev₁, ev₂, hevs, hev₁, hev₂, st₁, hw₁, hw₂⟩ := fedInvite_of_lt hspec (not_isLocal s nid) hf
    (by rw [hroom]; exact hlt) (ha.other (by omega)) hok
  rw [hroom] at hev₁ hw₁
  refine ⟨ev₁, ev₂, hevs, hev₁, hev₂, by omega, fun _ => ?_, by omega, fun _ => ?_, ?_⟩
  · have hgone : st'.view (S.room s) = st₁.view (S.room s) := congrArg _ (hw₂.others _ hne.symm)
    rw [hgone, hw₁.row, ownRow, if_neg hs, if_neg (by omega)]
  · rw [hw₂.row, otherRow, if_neg hs]
  · exact pairs_of_writes (pairs_of_writes ha.pairs hw₁) hw₂

theorem StoreAt.otherLeave (ha : S.StoreAt w w st n 3 e)
    (hev : IsMember ev (S.room !w) (S.user !w) (S.user !w) "leave")
    (hok : handleEvent ⟨S.serverName w, nid⟩ ev st = (.ok evs, st')) : evs = [ev] ∧ st' = st := by
  have hnone : st.view (S.room !w) = none := (ha.seen (by omega)).trans (if_pos rfl)
  exact leave_without_row hev (map_eq_none_iff.mp hnone) (handleEvent_member hev (by decide) hok)

/-! ### The answer to the own invite -/

variable (w s) in
/-- What the other user does in the own room: join the room of `w`, or leave the other. -/
def reply : String := if s = w then "join" else "leave"

theorem reply_ne : reply w s ≠ "invite" := by
  unfold reply
  split_ifs <;> decide

theorem StoreAt.reply (ha : S.StoreAt w s st 3 h 0) (hne : S.room (!s) ≠ S.room s)
    (hev : IsMember ev (S.room s) (S.user !s) (S.user !s) (reply w s))
    (hok : handleEvent ⟨S.serverName s, nid⟩ ev st = (.ok evs, st')) :
    evs = [ev] ∧ S.StoreAt w s st' 3 h 1 := by
  have hok := handleEvent_member hev reply_ne hok
  have hrow := ha.invited (by omega)
  have huser : S.user (!s) ≠ S.user s := user_ne_not s
  have hstate : (⟨S.user s, S.user !s, .join, .invite⟩ : View).stateOf (S.user !s) = .invite :=
    if_neg huser
  by_cases hs : s = w
  · rw [Scenario.reply, if_pos hs] at hev
    rw [ownRow, if_pos hs, if_pos rfl] at hrow
    obtain ⟨hevs, hw⟩ := writes_normal (t := ⟨.invite, "join", .join, .join⟩) hev hrow
      (by rw [hstate]; decide) (by rw [hstate]; rfl) (by decide) hok
    rw [if_neg huser] at hw
    refine ⟨hevs, ha.writeOwn hne hw (by omega) fun _ => ?_⟩
    rw [ownRow, if_pos hs, if_neg (by omega)]
  · rw [Scenario.reply, if_neg hs] at hev
    rw [ownRow, if_neg hs] at hrow
    by_cases hh : h < 3
    · rw [if_pos hh, if_pos rfl] at hrow
      obtain ⟨hevs, hw⟩ := writes_normal (t := ⟨.invite, "leave", .leave, .default⟩) hev hrow
        (by rw [hstate]; decide) (by rw [hstate]; rfl) (by decide) hok
      rw [if_neg huser] at hw
      refine ⟨hevs, ha.writeOwn hne hw (by omega) fun _ => ?_⟩
      rw [ownRow, if_neg hs, if_pos hh, if_neg (by omega)]
    · -- the own room has been given up in the meantime
      rw [if_neg hh] at hrow
      have hnone := map_eq_none_iff.mp hrow
      obtain ⟨hevs, rfl⟩ := leave_without_row hev hnone hok
      refine ⟨hevs, ha.writeOwn hne (writes_refl hnone) (by omega) fun _ => ?_⟩
      rw [ownRow, if_neg hs, if_neg hh]

/-! ## The events on their way -/

variable {h' n' e₂ : Nat} {c c₂ : Bool → List Event} {st₂ : Store}

theorem sent_remote (hev : ev.sender = S.user !s) : S.sent s r [ev] = [] := by
  have := S.isRemote !s
  rw [Bool.not_not] at this
  simp [sent, hev, this]

theorem sent_cons_of_ne (hr : ev.roomID ≠ S.room r) : S.sent s r (ev :: evs) = S.sent s r evs := by
  simp [sent, hr]

theorem sent_cons_of_eq (hev : ev.sender = S.user s) (hr : ev.roomID = S.room r) :
    S.sent s r (ev :: evs) = ev :: S.sent s r evs := by
  simp [sent, hev, hr, S.isLocal]

variable (S w s) in
/-- The answer of the other server, which has handled `h'` events of the own room. -/
inductive Answer (h' : Nat) : Nat → List Event → Prop
  | waiting : h' < 3 → Answer h' 0 []
  | sent (ev : Event) : h' = 3 → IsMember ev (S.room s) (S.user !s) (S.user !s) (reply w s) →
    Answer h' 0 [ev]
  | handled : h' = 3 → Answer h' 1 []

theorem Answer.of_lt (ha : S.Answer w s h' e l) (hh : h' < 3) : e = 0 ∧ l = [] := by
  cases ha with
  | waiting => exact ⟨rfl, rfl⟩
  | sent ev h3 => omega
  | handled h3 => omega

variable (S w s) in
/-- After the invite, the other user leaves the room that is given up. -/
def Leaves (n' : Nat) (l : List Event) : Prop :=
  ∀ ev ∈ l, s = w ∧ n' = 3 ∧ IsMember ev (S.room !s) (S.user !s) (S.user !s) "leave"

variable (S w s) in
/-- One server: its table, the own events it has handled and those of the other server, the events
of the other room that it has handled and those of the own room that the other server has, and the
events on their way. -/
structure Side (st : Store) (n n' h h' e : Nat) (c : Bool → List Event) : Prop where
  store : S.StoreAt w s st n h e
  done_le : n ≤ 3
  late : h = 3 → n = 3
  le : h ≤ n'
  other : ∃ l, c (!s) = ((S.script !s).take n').drop h ++ l ∧ S.Leaves w s n' l
  own : S.Answer w s h' e (c s)

section
variable (hs : S.Side w s st n n' h h' e c)
include hs

theorem Side.act (hle : n' ≤ 3) (hle' : h' ≤ n) (hne : S.room (!s) ≠ S.room s)
    (hev : (S.script s)[n]? = some ev)
    (hok : handleEvent ⟨S.serverName s, nid⟩ ev st = (.ok evs, st')) :
    evs = [ev] ∧ S.Side w s st' (n + 1) n' h h' e c := by
  have hlen : n < 3 := (List.getElem?_eq_some_iff.mp hev).1
  have hh : h < 3 := by
    have := hs.late
    have := hs.le
    omega
  obtain ⟨rfl, -⟩ := hs.own.of_lt (by omega)
  have hst : evs = [ev] ∧ S.StoreAt w s st' (n + 1) h 0 := by
    by_cases hn : n < 2
    · obtain ⟨hevs, v, hw, ho⟩ := (hs.store.own hlen).advance hn hev hok
      exact ⟨hevs, hs.store.writeOwn hne hw (fun _ => ho) (by omega)⟩
    · obtain rfl : n = 2 := by omega
      obtain rfl := some.inj hev
      exact hs.store.invite hh hne hok
  exact ⟨hst.1, { hs with store := hst.2, done_le := hlen, late := by omega }⟩

theorem Side.acted (hne : S.room (!s) ≠ S.room s) (hev : (S.script !s)[n']? = some ev) :
    S.Side w s st n (n' + 1) h h' e fun r => c r ++ S.sent (!s) r [ev] := by
  obtain ⟨hsender, hroom⟩ := script_spec hev
  have hlen : n' < 3 := (List.getElem?_eq_some_iff.mp hev).1
  obtain ⟨l, hl, hleave⟩ := hs.other
  have hnil : l = [] := by
    cases l with
    | nil => rfl
    | cons a l =>
      have := (hleave a mem_cons_self).2.1
      omega
  have hle := hs.le
  refine { hs with le := by omega, other := ⟨[], ?_, by simp [Leaves]⟩, own := ?_ }
  · have htake : (S.script !s).take (n' + 1) = (S.script !s).take n' ++ [ev] := by
      rw [take_add_one, hev]
      rfl
    rw [hl, hnil, htake, drop_append_of_le_length (by simp [script]; omega),
      sent_cons_of_eq hsender hroom]
    simp [sent]
  · have hroom' : ev.roomID ≠ S.room s := by rw [hroom]; exact hne
    rw [sent_cons_of_ne hroom']
    simpa [sent] using hs.own

theorem Side.reply (hne : S.room (!s) ≠ S.room s) (hle : h' ≤ n) (hc : c s = ev :: l)
    (hok : handleEvent ⟨S.serverName s, nid⟩ ev st = (.ok evs, st')) :
    ev.sender = S.user (!s) ∧ evs = [ev] ∧ S.Side w s st' n n' h h' 1 (Function.update c s l) := by
  have hown := hs.own
  rw [hc] at hown
  cases hown with
  | sent ev h3 hev =>
    have hn : n = 3 := by
      have := hs.done_le
      omega
    subst hn
    obtain ⟨hevs, hst⟩ := hs.store.reply hne hev hok
    refine ⟨hev.sender, hevs, { hs with store := hst, other := ?_, own := ?_ }⟩
    · rw [update_of_ne (Bool.not_ne_self s)]
      exact hs.other
    · rw [update_self]
      exact .handled h3

theorem Side.heard (hh : h' < 2) : S.Side w s st n n' h (h' + 1) e c := by
  obtain ⟨rfl, hnil⟩ := hs.own.of_lt (by omega)
  exact { hs with own := hnil ▸ .waiting (by omega) }

end

theorem Side.answered (hs : S.Side w (!s) st n n' h 2 e c) (hown : ∃ ev, S.sent s (!s) evs = [ev] ∧
      IsMember ev (S.room !s) (S.user s) (S.user s) (Scenario.reply w !s))
    (hother : ∀ ev ∈ S.sent s s evs, (!s) = w ∧ n' = 3 ∧
      IsMember ev (S.room s) (S.user s) (S.user s) "leave") :
    S.Side w (!s) st n n' h 3 e fun r => c r ++ S.sent s r evs := by
  obtain ⟨rfl, hnil⟩ := hs.own.of_lt (by omega)
  obtain ⟨l, hl, hleave⟩ := hs.other
  obtain ⟨ev, hsent, hev⟩ := hown
  rw [Bool.not_not] at hl
  refine { hs with other := ⟨l ++ S.sent s s evs, ?_, ?_⟩, own := ?_ }
  · rw [Bool.not_not, hl, append_assoc]
  · intro ev hmem
    refine (mem_append.mp hmem).elim (hleave ev) fun hmem => ?_
    rw [Bool.not_not]
    exact hother ev hmem
  · rw [hnil, hsent]
    refine .sent ev rfl ?_
    rwa [Bool.not_not]

section
variable (hs : S.Side w s st n n' h h' e c)
include hs

/-- The next event of the other room is one of the other user's first three, or the leave of the
room that was given up. -/
theorem Side.next (hc : c (!s) = ev :: l) : ((S.script !s)[h]? = some ev ∧ h < n' ∧
      ∃ l', l = ((S.script !s).take n').drop (h + 1) ++ l' ∧ S.Leaves w s n' l') ∨
    (s = w ∧ h = 3 ∧ IsMember ev (S.room !s) (S.user !s) (S.user !s) "leave" ∧
      ∃ l', l = ((S.script !s).take n').drop h ++ l' ∧ S.Leaves w s n' l') := by
  obtain ⟨l', hl, hleave⟩ := hs.other
  rw [hc] at hl
  cases hd : ((S.script !s).take n').drop h with
  | nil =>
    rw [hd, nil_append] at hl
    subst hl
    obtain ⟨hw, hn, hev⟩ := hleave ev mem_cons_self
    have hlen := drop_eq_nil_iff.mp hd
    have hle := hs.le
    rw [hn] at hlen
    have hlen : 3 ≤ h := hlen
    exact .inr ⟨hw, by omega, hev, l, rfl, fun a ha => hleave a (mem_cons_of_mem _ ha)⟩
  | cons a d =>
    rw [hd] at hl
    obtain ⟨rfl, rfl⟩ := cons.inj hl
    have hget : ((S.script !s).take n')[h]? = some ev := by rw [← head?_drop, hd]; rfl
    have hlt : h < n' := by
      by_contra hge
      rw [getElem?_take, if_neg hge] at hget
      cases hget
    rw [getElem?_take_of_lt hlt] at hget
    refine .inl ⟨hget, hlt, l', ?_, hleave⟩
    rw [← drop_drop, hd]
    rfl

theorem Side.take (hlt : h < n')
    (hother : ∃ l', l = ((S.script !s).take n').drop (h + 1) ++ l' ∧ S.Leaves w s n' l')
    (hst : S.StoreAt w s st' n (h + 1) e) (hlate : h + 1 = 3 → n = 3) :
    S.Side w s st' n n' (h + 1) h' e (Function.update c (!s) l) where
  store := hst
  done_le := hs.done_le
  late := hlate
  le := hlt
  other := by rwa [update_self]
  own := by
    rw [update_of_ne (Bool.self_ne_not s)]
    exact hs.own

theorem Side.recv (hw : S.room w < S.room !w) (hc : c (!s) = ev :: l)
    (hinv : (S.invite !s) = ev → n = 3)
    (hok : handleEvent ⟨S.serverName s, nid⟩ ev st = (.ok evs, st')) :
    ∃ h₁, S.Side w s st' n n' h₁ h' e (Function.update c (!s) l) ∧
      ∀ st₂ e₂ c₂, S.Side w (!s) st₂ n' n h' h e₂ c₂ →
        S.Side w (!s) st₂ n' n h' h₁ e₂ fun r => c₂ r ++ S.sent s r evs := by
  have hne := room_ne hw s
  rcases hs.next hc with ⟨hget, hlt, hother⟩ | ⟨rfl, rfl, hev, hother⟩
  · by_cases hh : h < 2
    · obtain ⟨rfl, v, hv, ho⟩ := (hs.store.other (by omega)).advance hh hget hok
      have hrow : S.ownRow w s (h + 1) e = S.ownRow w s h e := by
        rw [ownRow, ownRow, if_pos (show h + 1 < 3 by omega), if_pos (show h < 3 by omega)]
      have hst := hs.store.writeOther hne hv (fun _ => ho) (by omega) hrow
      refine ⟨h + 1, hs.take hlt hother hst (by omega), ?_⟩
      intro st₂ e₂ c₂ h₂
      simpa [sent_remote (script_spec hget).1] using h₂.heard hh
    · have hlen := (List.getElem?_eq_some_iff.mp hget).1
      obtain rfl : h = 2 := by
        have : h < 3 := hlen
        omega
      obtain rfl := some.inj hget
      obtain rfl := hinv rfl
      have ha := hs.store
      by_cases hsw : s = w
      · subst hsw
        obtain ⟨ev, rfl, hev, hst⟩ := ha.otherInvite_stay hw hok
        refine ⟨3, hs.take hlt hother hst fun _ => rfl,
          fun st₂ e₂ c₂ h₂ => h₂.answered ⟨ev, ?_, ?_⟩ ?_⟩
        · exact sent_cons_of_eq hev.sender hev.roomID
        · rwa [Scenario.reply, if_neg (Bool.not_ne_self s)]
        · rw [sent_cons_of_ne (by rw [hev.roomID]; exact hne)]
          simp [sent]
      · have hsw' : (!s) = w := (Bool.eq_not_of_ne (Ne.symm hsw)).symm
        have hlt' : S.room (!s) < S.room s := by
          rw [← hsw', Bool.not_not] at hw
          exact hw
        obtain ⟨ev₁, ev₂, rfl, hev₁, hev₂, hst⟩ := ha.otherInvite_yield hsw hlt' hok
        refine ⟨3, hs.take hlt hother hst fun _ => rfl,
          fun st₂ e₂ c₂ h₂ => h₂.answered ⟨ev₂, ?_, ?_⟩ ?_⟩
        · rw [sent_cons_of_ne (by rw [hev₁.roomID]; exact hne.symm)]
          exact sent_cons_of_eq hev₂.sender hev₂.roomID
        · rwa [Scenario.reply, if_pos hsw']
        · rw [sent_cons_of_eq hev₁.sender hev₁.roomID,
            sent_cons_of_ne (by rw [hev₂.roomID]; exact hne)]
          intro ev hmem
          obtain rfl := mem_singleton.mp hmem
          exact ⟨hsw', rfl, hev₁⟩
  · obtain ⟨rfl, rfl⟩ := hs.store.otherLeave hev hok
    have hkeep : Function.update c (!s) l s = c s :=
      update_of_ne (Bool.self_ne_not s) ..
    refine ⟨3, { hs with
      other := by rwa [update_self]
      own := by rw [hkeep]; exact hs.own }, ?_⟩
    intro st₂ e₂ c₂ h₂
    simpa [sent_remote hev.sender] using h₂

end

/-! ## Runs -/

variable {σ σ' : State}

variable (S w) in
def At (σ : State) : Prop :=
  ∃ h e : Bool → Nat, ∀ s,
    S.Side w s (σ.store s) (σ.done s) (σ.done !s) (h s) (h !s) (e s) (σ.chan s)

variable (s h e h' e₂) in
theorem At.of_sides (hs : S.Side w s (σ.store s) (σ.done s) (σ.done !s) h h' e (σ.chan s))
    (ho : S.Side w (!s) (σ.store !s) (σ.done !s) (σ.done s) h' h e₂ (σ.chan !s)) : S.At w σ := by
  refine ⟨fun x => if x = s then h else h', fun x => if x = s then e else e₂, fun x => ?_⟩
  by_cases hx : x = s
  · subst hx
    simpa using hs
  · obtain rfl := Bool.eq_not_of_ne hx
    simpa using ho

theorem At.sides (ha : S.At w σ) (s : Bool) :
    ∃ h h' e e₂, S.Side w s (σ.store s) (σ.done s) (σ.done !s) h h' e (σ.chan s) ∧
      S.Side w (!s) (σ.store !s) (σ.done !s) (σ.done s) h' h e₂ (σ.chan !s) := by
  obtain ⟨h, e, ha⟩ := ha
  have ho := ha !s
  rw [Bool.not_not] at ho
  exact ⟨h s, h !s, e s, e !s, ha s, ho⟩

theorem handle_eq_some (hσ : S.handle σ s nid ev = some σ') :
    ∃ evs st', handleEvent ⟨S.serverName s, nid⟩ ev (σ.store s) = (.ok evs, st') ∧ σ' = { σ with
        store := Function.update σ.store s st'
        chan := Function.update σ.chan (!s) fun r => σ.chan (!s) r ++ S.sent s r evs } := by
  unfold handle at hσ
  split at hσ
  next evs st' heq => exact ⟨evs, st', heq, (some.inj hσ).symm⟩
  next => cases hσ

theorem isInvite_invite (r : Bool) : isInvite (S.invite r) = true := by
  obtain ⟨c, hc, hm⟩ := (S.invite_spec r).content
  simp [isInvite, hc, hm, (S.invite_spec r).type]

theorem At.act (ha : S.At w σ) (hw : S.room w < S.room !w)
    (hσ : S.step σ (.act s nid) = some σ') : S.At w σ' := by
  obtain ⟨h, h', e, e₂, hs, ho⟩ := ha.sides s
  dsimp only [Scenario.step] at hσ
  split at hσ
  next => cases hσ
  next ev hev =>
    obtain ⟨σ₁, hh, rfl⟩ := map_eq_some_iff.mp hσ
    obtain ⟨evs, st', hok, rfl⟩ := handle_eq_some hh
    obtain ⟨rfl, hs'⟩ := hs.act ho.done_le ho.le (room_ne hw s) hev hok
    have ho' := ho.acted (room_ne hw !s) (by rwa [Bool.not_not])
    refine At.of_sides s h e h' e₂ ?_ ?_
    · simpa using hs'
    · simpa using ho'

theorem At.recv (ha : S.At w σ) (hw : S.room w < S.room !w)
    (hσ : S.step σ (.recv s r nid) = some σ') : S.At w σ' := by
  obtain ⟨h, h', e, e₂, hs, ho⟩ := ha.sides s
  dsimp only [Scenario.step] at hσ
  split at hσ
  next => cases hσ
  next ev l hc =>
    split_ifs at hσ with hinv
    obtain ⟨evs, st', hok, rfl⟩ := handle_eq_some hσ
    by_cases hr : r = s
    · subst hr
      obtain ⟨hsender, rfl, hs'⟩ := hs.reply (room_ne hw r) ho.le hc hok
      refine At.of_sides r h 1 h' e₂ ?_ ?_
      · simpa using hs'
      · simpa [sent_remote hsender] using ho
    · obtain rfl := Bool.eq_not_of_ne hr
      have hdone : S.invite (!s) = ev → σ.done s = 3 := by
        rintro rfl
        have hle := hs.done_le
        have hge : ¬ σ.done s < 3 := fun hlt => hinv ⟨isInvite_invite !s, hlt⟩
        omega
      obtain ⟨h₁, hs', ho'⟩ := hs.recv hw hc hdone hok
      refine At.of_sides s h₁ e h' e₂ ?_ ?_
      · simpa using hs'
      · simpa using ho' _ _ _ ho

theorem At.step (hw : S.room w < S.room !w) {a : Label} (ha : S.At w σ)
    (hσ : S.step σ a = some σ') : S.At w σ' := by
  cases a with
  | act s nid => exact ha.act hw hσ
  | recv s r nid => exact ha.recv hw hσ

theorem At.start (hσ : S.Start σ) : S.At w σ := by
  refine ⟨fun _ => 0, fun _ => 0, fun s => ⟨⟨fun _ => ?_, ?_, fun _ => ?_, nofun, ?_⟩, ?_, nofun,
    Nat.zero_le _, ⟨[], ?_, nofun⟩, ?_⟩⟩
  · rw [hσ.done]
    exact fun f hf => hσ.store s f (getFriendshipByRoomID_eq_some.mp hf).1
  · rw [hσ.done]
    omega
  · exact fun f hf => hσ.store s f (getFriendshipByRoomID_eq_some.mp hf).1
  · exact fun f hf hp => absurd hp (hσ.store s f hf)
  · rw [hσ.done]
    omega
  · rw [hσ.chan, hσ.done]
    rfl
  · rw [hσ.chan]
    exact .waiting (Nat.succ_pos 2)

theorem At.quiet (ha : S.At w σ) (hq : S.Quiet σ) (s : Bool) : S.StoreAt w s (σ.store s) 3 3 1 := by
  obtain ⟨h, e, ha⟩ := ha
  have hdone : ∀ s, σ.done s = 3 := hq.done
  have hh : ∀ s, h s = 3 := by
    intro s
    obtain ⟨l, hl, -⟩ := (ha s).other
    have hle := (ha s).le
    rw [hq.chan, hdone] at hl
    have hdrop := drop_eq_nil_iff.mp (append_eq_nil_iff.mp hl.symm).1
    have hge : 3 ≤ h s := hdrop
    rw [hdone] at hle
    omega
  have he : e s = 1 := by
    have hown := (ha s).own
    rw [hq.chan, hh] at hown
    generalize e s = k at hown
    cases hown with
    | waiting hlt => omega
    | handled => rfl
  have hst := (ha s).store
  rwa [hdone, hh, he] at hst

theorem StoreAt.final (ha : S.StoreAt w s st 3 3 1) : st.view (S.room !w) = none ∧
      ∃ f, st.getFriendshipByRoomID (S.room w) = some f ∧ parties f = S.pair ∧
        f.fcIDState = .join ∧ f.toFcIDState = .join := by
  have hown := ha.invited (by omega)
  have hother := ha.seen (by omega)
  by_cases hs : s = w
  · subst hs
    rw [ownRow, if_pos rfl, if_neg (by omega)] at hown
    rw [otherRow, if_pos rfl] at hother
    obtain ⟨f, hf, -, hv⟩ := exists_of_view hown
    obtain ⟨h₁, h₂, h₃, h₄⟩ := View.mk.inj hv
    exact ⟨hother, f, hf, by rw [parties, h₁, h₂, pair_eq], h₃, h₄⟩
  · obtain rfl := Bool.eq_not_of_ne (Ne.symm hs)
    rw [ownRow, if_neg hs, if_neg (by omega)] at hown
    rw [otherRow, if_neg hs] at hother
    obtain ⟨f, hf, -, hv⟩ := exists_of_view hother
    obtain ⟨h₁, h₂, h₃, h₄⟩ := View.mk.inj hv
    refine ⟨by rwa [Bool.not_not], f, hf, ?_, h₃, h₄⟩
    rw [parties, h₁, h₂, Sym2.eq_swap, pair_eq]

theorem rows_of_final (ha : S.StoreAt w s st n h e)
    (hnone : st.view (S.room !w) = none) (hf : st.getFriendshipByRoomID (S.room w) = some f)
    (hp : parties f = S.pair) : (st.rows.filter fun g => parties g = S.pair) = [f] := by
  obtain ⟨hmem, hroom⟩ := getFriendshipByRoomID_eq_some.mp hf
  have hiff : ∀ g, g ∈ st.rows ∧ parties g = S.pair ↔ g = f := by
    refine fun g => ⟨fun ⟨hg, hgp⟩ => ?_, fun hg => hg ▸ ⟨hmem, hp⟩⟩
    obtain ⟨r, hr⟩ := ha.pairs g hg hgp
    have hget := getFriendshipByRoomID_eq_some.mpr ⟨hg, hr⟩
    by_cases hrw : r = w
    · subst hrw
      exact some.inj (hget.symm.trans hf)
    · obtain rfl := Bool.eq_not_of_ne hrw
      rw [view, hget] at hnone
      cases hnone
  refine perm_singleton.mp ((perm_ext_iff_of_nodup ?_ (nodup_singleton f)).mpr ?_)
  · exact (List.Nodup.of_map _ st.nodup).filter _
  · intro g
    simpa using hiff g

/-- **Glare converges**: both servers have one row of the two users, that of the smaller room, which
both have joined. -/
theorem glare_converges (S : Scenario) {w : Bool} (hw : S.room w < S.room !w) {σ₀ σ : State}
    (hstart : S.Start σ₀) {as : List Label} (hrun : run S.step σ₀ as = some σ) (hq : S.Quiet σ)
    (s : Bool) :
    ∃ f, ((σ.store s).rows.filter fun g => parties g = S.pair) = [f] ∧ f.roomID = S.room w ∧
      f.fcIDState = .join ∧ f.toFcIDState = .join := by
  have hat : S.At w σ := run_preserves (fun ha hσ => At.step hw ha hσ) (At.start hstart) hrun
  have hst := hat.quiet hq s
  obtain ⟨hnone, f, hf, hp, hjoin⟩ := hst.final
  exact ⟨f, rows_of_final hst hnone hf hp, (getFriendshipByRoomID_eq_some.mp hf).2, hjoin⟩

def aliceAndBob : Scenario where
  user s := if s then "@a:x" else "@b:y"
  room s := if s then "!r:x" else "!s:y"
  serverName s := if s then ["x"] else ["y"]
  create s := if s then createEv "$1:x" "!r:x" "@a:x" else createEv "$1:y" "!s:y" "@b:y"
  join s := if s then memberEv "$2:x" "!r:x" "@a:x" "@a:x" "join"
    else memberEv "$2:y" "!s:y" "@b:y" "@b:y" "join"
  invite s := if s then memberEv "$3:x" "!r:x" "@a:x" "@b:y" "invite"
    else memberEv "$3:y" "!s:y" "@b:y" "@a:x" "invite"
  user_ne := by decide
  isLocal := by decide
  isRemote := by decide
  create_type := by decide
  create_room := by decide
  create_sender := by decide
  join_spec s := by cases s <;> exact ⟨rfl, rfl, rfl, rfl, _, rfl, rfl⟩
  invite_spec s := by cases s <;> exact ⟨rfl, rfl, rfl, rfl, _, rfl, rfl⟩

def invitesCross : List Label :=
  let nid : Nat → Int := fun i => i
  [.act true nid, .act true nid, .act true nid, .act false nid, .act false nid, .act false nid,
    .recv true false nid, .recv true false nid, .recv true false nid,
    .recv false true nid, .recv false true nid, .recv false true nid,
    .recv true false nid, .recv true true nid, .recv false false nid]

theorem glare_converges_aliceAndBob :
    ∃ σ, run aliceAndBob.step ⟨fun _ => .empty, fun _ => 0, fun _ _ => []⟩ invitesCross = some σ ∧
      aliceAndBob.Quiet σ ∧ ∀ s, ∃ f,
        ((σ.store s).rows.filter fun g => parties g = aliceAndBob.pair) = [f] ∧
          f.roomID = "!r:x" ∧ f.fcIDState = .join ∧ f.toFcIDState = .join := by
  have hsome : (run aliceAndBob.step ⟨fun _ => .empty, fun _ => 0, fun _ _ => []⟩
      invitesCross).isSome = true := rfl
  obtain ⟨σ, hσ⟩ := isSome_iff_exists.mp hsome
  have hq : aliceAndBob.Quiet σ := by
    obtain rfl := some.inj hσ
    refine ⟨fun s => ?_, fun s r => ?_⟩
    · cases s <;> rfl
    · cases s <;> cases r <;> rfl
  exact ⟨σ, hσ, hq, glare_converges aliceAndBob (w := true) (by decide) ⟨by simp [Store.empty],
    fun _ => rfl, fun _ _ => rfl⟩ hσ hq⟩

end Scenario

end Ligase.Rcs
