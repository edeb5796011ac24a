import Ligase.Rcs.Keys

/-!
# Who has joined once

A row keeps for each party whether they have joined at some time.

* **`onceJoined_sound`**: the runs in which a party who is joined has the flag.
-/

namespace Ligase.Rcs

open Lib Auth Proc Store Option List

variable {st st' : Store} {f f' f'' : RCSFriendship} {p : Processor} {ev : Event} {roomID : String}

namespace RCSFriendship

def onceJoined (f : RCSFriendship) (user : String) : Option Bool :=
  if user = f.fcID then some f.fcIDOnceJoined
  else if user = f.toFcID then some f.toFcIDOnceJoined
  else none

def Flagged (f : RCSFriendship) : Prop :=
  (f.fcIDState = .join → f.fcIDOnceJoined = true) ∧
    (f.toFcIDState = .join → f.toFcIDOnceJoined = true)

/-- The flags that are set stay so; where the first party is another one now, both are set. -/
structure KeepsFlags (f f' : RCSFriendship) : Prop where
  first : f.fcIDOnceJoined = true → f'.fcIDOnceJoined = true
  second : f.toFcIDOnceJoined = true → f'.toFcIDOnceJoined = true
  parties : f'.fcID = f.fcID ∨ f'.fcIDOnceJoined = true ∧ f'.toFcIDOnceJoined = true

theorem KeepsFlags.refl (f : RCSFriendship) : f.KeepsFlags f :=
  ⟨fun h => h, fun h => h, .inl rfl⟩

theorem KeepsFlags.trans (h : f.KeepsFlags f') (h' : f'.KeepsFlags f'') : f.KeepsFlags f'' := by
  refine ⟨h'.first ∘ h.first, h'.second ∘ h.second, ?_⟩
  rcases h'.parties with hfc' | hset
  · rcases h.parties with hfc | ⟨hfirst, hsecond⟩
    · exact .inl (hfc'.trans hfc)
    · exact .inr ⟨h'.first hfirst, h'.second hsecond⟩
  · exact .inr hset

theorem KeepsFlags.onceJoined (h : f.KeepsFlags f') {user : String}
    (hu : f.onceJoined user = some true) : f'.onceJoined user ≠ some false := by
  unfold RCSFriendship.onceJoined at hu ⊢
  rcases h.parties with hfc | ⟨hfirst, hsecond⟩
  · rw [hfc]
    split_ifs at hu ⊢
    · simp [h.first (some.inj hu)]
    · simp [h.second (some.inj hu)]
    · simp
  · rw [hfirst, hsecond]
    split_ifs <;> simp

end RCSFriendship

/-! ## Member events -/

/-- Who has left and comes back by an invite has joined before. -/
def Call.JoinedBefore (st : Store) : Call → Prop
  | .membership p ev => ∀ f stateKey, st.getFriendshipByRoomID ev.roomID = some f →
      ev.stateKey = some stateKey → textOf ev = some "invite" →
      Rejoins p ev stateKey "invite" f → st.glare ev stateKey = none →
      (if ev.sender = f.fcID then f.fcIDOnceJoined else f.toFcIDOnceJoined) = true
  | _ => True

theorem action_of_join {t : Transition} (ht : t ∈ transitions) (ha : t.action ≠ .ignore) :
    t.next = .join → t.action = .join := by
  have hall : ∀ t ∈ transitions, t.action ≠ .ignore → t.next = .join → t.action = .join := by decide
  exact hall t ht ha

theorem invitedBack_eq_join {s : St} (h : s.invitedBack = .join) : s = .join := by
  unfold St.invitedBack at h
  split_ifs at h
  exact h

theorem RowWrite.flagged (hs : ∀ f ∈ st.rows, f.Flagged)
    (hcall : Call.JoinedBefore st (.membership p ev)) (h : RowWrite p ev st f) : f.Flagged := by
  have hrow : ∀ g {roomID : String}, st.getFriendshipByRoomID roomID = some g → g.Flagged :=
    fun g _ hg => hs g (getFriendshipByRoomID_eq_some.mp hg).1
  cases h with
  | first g t r hg hkey ht hop ha =>
    refine ⟨fun hj => ?_, (hrow g hg).2⟩
    simp [friendship, action_of_join ht ha hj]
  | second g t stateKey r hg hkey hne ht hop ha =>
    refine ⟨(hrow g hg).1, fun hj => ?_⟩
    simp [friendship, action_of_join ht ha hj]
  | rejoined g stateKey s hg hkey hop hsender hglare hstates =>
    have hflag := hcall g stateKey hg hkey hop hsender hglare
    subst hstates
    by_cases hfc : ev.sender = g.fcID
    · rw [if_pos hfc] at hflag
      refine ⟨fun _ => hflag, fun hj => (hrow g hg).2 ?_⟩
      -- the state key is not the first party, who is the sender
      have hkey : stateOf g stateKey = g.toFcIDState :=
        if_neg fun he => hsender.2.2.2 (hfc.trans he.symm)
      simp only [friendship, if_pos hfc, hkey] at hj
      exact invitedBack_eq_join hj
    · rw [if_neg hfc] at hflag
      refine ⟨fun hj => (hrow g hg).1 ?_, fun _ => hflag⟩
      simp only [friendship, if_neg hfc] at hj
      have hkey := invitedBack_eq_join hj
      -- were the state key not the first party, it would have the state of the sender
      by_cases hk : stateKey = g.fcID
      · rwa [stateOf, if_pos hk] at hkey
      · have hleft := hsender.2.1
        rw [stateOf, if_neg hfc] at hleft
        rw [stateOf, if_neg hk, hleft] at hkey
        cases hkey
  | firstJoins g hg => exact ⟨fun _ => rfl, (hrow g hg).2⟩
  | secondJoins g r hg => exact ⟨(hrow g hg).1, fun _ => rfl⟩
  | swapped f₁ f₂ stateKey r => exact ⟨fun _ => rfl, fun _ => rfl⟩

theorem RowWrite.keepsFlags (h : RowWrite p ev st f')
    (hf : st.getFriendshipByRoomID f'.roomID = some f) : f.KeepsFlags f' := by
  have hsame : ∀ g, st.getFriendshipByRoomID ev.roomID = some g →
      st.getFriendshipByRoomID g.roomID = some f → g = f := by
    intro g hg hf
    rw [(getFriendshipByRoomID_eq_some.mp hg).2] at hf
    exact some.inj (hg.symm.trans hf)
  cases h with
  | first g t r hg =>
    obtain rfl := hsame g hg hf
    exact ⟨fun hj => by simp [friendship, hj], id, .inl rfl⟩
  | second g t stateKey r hg =>
    obtain rfl := hsame g hg hf
    exact ⟨id, fun hj => by simp [friendship, hj], .inl rfl⟩
  | rejoined g stateKey s hg =>
    obtain rfl := hsame g hg hf
    exact ⟨id, id, .inl rfl⟩
  | firstJoins g hg =>
    obtain rfl := some.inj (hg.symm.trans hf)
    exact ⟨fun _ => rfl, id, .inl rfl⟩
  | secondJoins g r hg =>
    obtain rfl := some.inj (hg.symm.trans hf)
    exact ⟨id, fun _ => rfl, .inl rfl⟩
  | swapped f₁ f₂ stateKey r => exact ⟨fun _ => rfl, fun _ => rfl, .inr ⟨rfl, rfl⟩⟩

/-! ## Runs -/

theorem flagged_step {call : Call} (hs : ∀ f ∈ st.rows, f.Flagged) (hcall : call.JoinedBefore st)
    (h : Call.step st call = some st') : ∀ f ∈ st'.rows, f.Flagged := by
  cases call with
  | create ev =>
    obtain rfl := some.inj h
    show Ensures (handleCreate ev) st fun st' => ∀ f ∈ st'.rows, f.Flagged
    refine ensures_commit_bind.mpr ⟨fun _ => hs, fun t hins g hg => ?_⟩
    rcases ((mem_insert hins).2 g).mp hg with rfl | hold
    · exact ⟨fun hj => absurd hj (by simp), fun hj => absurd hj (by simp)⟩
    · exact hs g hold
  | membership p ev =>
    obtain rfl := some.inj h
    intro g hg
    exact ((rewrites_handleMembership p ev st).rows g hg).elim (hs g) (·.flagged hs hcall)
  | reorder rows => exact fun g hg => hs g ((perm_of_reorder h).mem_iff.mp hg)

theorem keepsFlags_step {call : Call} (hf : st.getFriendshipByRoomID roomID = some f)
    (h : Call.step st call = some st') (hf' : st'.getFriendshipByRoomID roomID = some f') :
    f.KeepsFlags f' := by
  obtain ⟨hmem, rfl⟩ := getFriendshipByRoomID_eq_some.mp hf'
  have hold : f' ∈ st.rows → f.KeepsFlags f' := by
    intro hin
    obtain rfl := some.inj (hf.symm.trans (getFriendshipByRoomID_eq_some.mpr ⟨hin, rfl⟩))
    exact .refl f
  cases call with
  | create ev =>
    obtain rfl := some.inj h
    have hmem' : Ensures (handleCreate ev) st fun t => ∀ g ∈ t.rows,
        g ∈ st.rows ∨ st.getFriendshipByRoomID g.roomID = none := by
      refine ensures_commit_bind.mpr ⟨fun _ g hg => .inl hg, fun t hins g hg => ?_⟩
      obtain ⟨hnew, hiff⟩ := mem_insert hins
      rcases (hiff g).mp hg with rfl | hin
      · refine .inr (eq_none_iff_forall_ne_some.mpr fun g' hg' => ?_)
        obtain ⟨hin, hroom⟩ := getFriendshipByRoomID_eq_some.mp hg'
        exact hnew g' hin hroom
      · exact .inl hin
    exact (hmem' f' hmem).elim hold fun hnone => absurd (hf.symm.trans hnone) (by simp)
  | membership p ev =>
    obtain rfl := some.inj h
    exact ((rewrites_handleMembership p ev st).rows f' hmem).elim hold (·.keepsFlags hf)
  | reorder rows => exact hold ((perm_of_reorder h).mem_iff.mp hmem)

theorem keepsFlags_run {calls : List Call} (hf : st.getFriendshipByRoomID roomID = some f)
    (hm : RunMeets Call.step (fun st _ => (st.getFriendshipByRoomID roomID).isSome = true) st calls)
    (h : run Call.step st calls = some st') (hf' : st'.getFriendshipByRoomID roomID = some f') :
    f.KeepsFlags f' := by
  refine run_invariant
    (I := fun s => ∀ g, s.getFriendshipByRoomID roomID = some g → f.KeepsFlags g) ?_ ?_ hm h f' hf'
  · intro s call t hs hc ht g hg
    obtain ⟨g₀, hg₀⟩ := isSome_iff_exists.mp hc
    exact (hs g₀ hg₀).trans (keepsFlags_step hg₀ ht hg)
  · intro g hg
    obtain rfl := some.inj (hf.symm.trans hg)
    exact .refl f

/-- **The flags are sound** in every run in which one who comes back by an invite has joined before;
and from any point on, a flag stays set as long as the row is there. -/
theorem onceJoined_sound {calls : List Call}
    (hm : RunMeets Call.step (fun st call => call.JoinedBefore st) .empty calls)
    (h : run Call.step .empty calls = some st) :
    (∀ f ∈ st.rows, f.Flagged) ∧
      ∀ before after s roomID user f f', calls = before ++ after →
        run Call.step .empty before = some s →
        RunMeets Call.step (fun st _ => (st.getFriendshipByRoomID roomID).isSome = true) s after →
        s.getFriendshipByRoomID roomID = some f → st.getFriendshipByRoomID roomID = some f' →
        f.onceJoined user = some true → f'.onceJoined user ≠ some false := by
  refine ⟨run_invariant flagged_step (fun f hf => absurd hf not_mem_nil) hm h, ?_⟩
  rintro before after s roomID user f f' rfl hs hrow hf hf' hu
  obtain ⟨s', hs', hafter⟩ := run_append_eq_some.mp h
  obtain rfl := some.inj (hs.symm.trans hs')
  exact (keepsFlags_run hf hrow hafter hf').onceJoined hu

/-! ## One who declines and comes back -/

/-- After Alice has invited Bob, Bob may join; they leave, and invite Alice. -/
def bobComesBack (joined : Bool) : List Call :=
  bobInvited ++ (if joined then [.membership serverX (selfJoin "@b:x")] else []) ++
    [.membership serverX (memberEv "$5:x" "!r:x" "@b:x" "@b:x" "leave"),
      .membership serverX (memberEv "$6:x" "!r:x" "@b:x" "@a:x" "invite")]

def backRow (once : Bool) : RCSFriendship :=
  ⟨"@a:x@b:x", "!r:x", "@a:x", "@b:x", .join, .join, false, false, "a", "b", true, once, "x", "x",
    "$6:x"⟩

theorem onceJoined_sound_joined :
    run Call.step .empty (bobComesBack true) = some ⟨[backRow true], nodup_singleton _⟩ ∧
      (backRow true).Flagged ∧ (backRow true).onceJoined "@b:x" ≠ some false := by
  have hrun : run Call.step .empty (bobComesBack true) =
      some ⟨[backRow true], nodup_singleton _⟩ := rfl
  have hm : RunMeets Call.step (fun st call => call.JoinedBefore st) .empty
      (bobComesBack true) := by
    refine ⟨trivial, ?_, ?_, ?_, ?_, ?_, trivial⟩ <;> intro f stateKey hf hk
    · exact fun hop => absurd hop (by decide)
    · obtain rfl := some.inj hf
      exact fun _ hr => absurd hr.2.1 (by decide)
    · exact fun hop => absurd hop (by decide)
    · exact fun hop => absurd hop (by decide)
    · obtain rfl := some.inj hf
      exact fun _ _ _ => rfl
  obtain ⟨hflags, hkept⟩ := onceJoined_sound hm hrun
  refine ⟨hrun, hflags _ mem_cons_self, ?_⟩
  exact hkept (bobInvited ++ [.membership serverX (selfJoin "@b:x")])
    [.membership serverX (memberEv "$5:x" "!r:x" "@b:x" "@b:x" "leave"),
      .membership serverX (memberEv "$6:x" "!r:x" "@b:x" "@a:x" "invite")]
    (joinedStore "@b:x" "b") "!r:x" "@b:x" (joinedRow "@b:x" "b") (backRow true) rfl rfl
    ⟨rfl, rfl, trivial⟩ rfl rfl (by decide)

/-- Alice invites Bob, Bob declines and then invites Alice: Bob is joined, but not noted as one who
has joined. -/
theorem rejoined_without_flag :
    RunMeets Call.step (fun st call => call.Handled st) .empty (bobComesBack false) ∧
      run Call.step .empty (bobComesBack false) =
        some ⟨[backRow false], nodup_singleton _⟩ ∧
      (backRow false).toFcID = "@b:x" ∧ (backRow false).toFcIDState = .join ∧
      (backRow false).onceJoined "@b:x" = some false ∧ ¬ (backRow false).Flagged := by
  refine ⟨⟨rfl, rfl, rfl, rfl, rfl, trivial⟩, rfl, rfl, rfl, by decide, fun h => ?_⟩
  exact absurd (h.2 rfl) (by decide)

end Ligase.Rcs
