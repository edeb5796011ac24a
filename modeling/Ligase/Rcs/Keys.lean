import Ligase.Rcs.Parties

/-!
# The keys of the rows

Only the id and the room of a row are unique in the table; that there is one row for two users is to
follow from the id.

* **`getID_identifies_pair`**: an id is that of one pair of users.
* **`one_row_per_pair`**: the calls that keep one row for two users.
-/

namespace Ligase.Rcs

open Lib Auth Proc Store Option List

variable {st st' : Store} {f : RCSFriendship} {p : Processor} {ev : Event}

theorem getID_comm (u v : String) : getID u v = getID v u := by
  unfold getID
  split_ifs with huv hvu hvu
  · exact absurd hvu (String.lt_asymm huv)
  · rfl
  · rfl
  · obtain rfl : u = v := String.le_antisymm (String.not_lt.mp hvu) (String.not_lt.mp huv)
    rfl

/-- The text starts with `'@'` and has no other one. -/
def IsUserID (u : String) : Prop := ∃ cs, u.toList = '@' :: cs ∧ '@' ∉ cs

theorem IsUserID.append_inj {a b c d : String} (ha : IsUserID a) (hb : IsUserID b)
    (hc : IsUserID c) (hd : IsUserID d) (h : a ++ b = c ++ d) : a = c ∧ b = d := by
  obtain ⟨as, ha, has⟩ := ha
  obtain ⟨bs, hb, hbs⟩ := hb
  obtain ⟨cs, hc, -⟩ := hc
  obtain ⟨ds, hd, -⟩ := hd
  have hlist := congrArg String.toList h
  rw [String.toList_append, String.toList_append, ha, hb, hc, hd, cons_append,
    cons_append, cons_inj_right] at hlist
  -- the second text starts at the only other `'@'`
  obtain ⟨hfst, -, hsnd⟩ := (append_cons_inj_of_notMem has hbs).mp hlist
  exact ⟨String.toList_inj.mp (by rw [ha, hc, hfst]), String.toList_inj.mp (by rw [hb, hd, hsnd])⟩

theorem getID_eq_or (u v : String) : getID u v = u ++ v ∨ getID u v = v ++ u := by
  unfold getID
  split_ifs
  · exact .inl rfl
  · exact .inr rfl

/-- **The id of two users is that of no other two.** -/
theorem getID_identifies_pair {a b c d : String} (ha : IsUserID a) (hb : IsUserID b)
    (hc : IsUserID c) (hd : IsUserID d) :
    (getID a b = getID c d → s(a, b) = s(c, d)) ∧ getID a b = getID b a := by
  refine ⟨fun h => Sym2.eq_iff.mpr ?_, getID_comm a b⟩
  rcases getID_eq_or a b with hab | hab
  · rcases getID_eq_or c d with hcd | hcd
    · exact .inl (ha.append_inj hb hc hd (by rw [← hab, h, hcd]))
    · exact .inr (ha.append_inj hb hd hc (by rw [← hab, h, hcd]))
  · rcases getID_eq_or c d with hcd | hcd
    · exact .inr (hb.append_inj ha hc hd (by rw [← hab, h, hcd])).symm
    · exact .inl (hb.append_inj ha hd hc (by rw [← hab, h, hcd])).symm

theorem getID_identifies_pair_ab :
    (getID "@a:x" "@ab:x" = getID "@ab:x" "@a:x" → s("@a:x", "@ab:x") = s("@ab:x", "@a:x")) ∧
      getID "@a:x" "@ab:x" = getID "@ab:x" "@a:x" :=
  getID_identifies_pair ⟨_, rfl, by decide⟩ ⟨_, rfl, by decide⟩ ⟨_, rfl, by decide⟩
    ⟨_, rfl, by decide⟩

theorem getID_eq_of_parties {g : RCSFriendship} (h : parties f = parties g) :
    getID f.fcID f.toFcID = getID g.fcID g.toFcID := by
  rcases Sym2.eq_iff.mp h with ⟨hfc, hto⟩ | ⟨hfc, hto⟩
  · rw [hfc, hto]
  · rw [hfc, hto, getID_comm]

/-! ## Rows with two parties -/

def RCSFriendship.Paired (f : RCSFriendship) : Prop := f.fcID ≠ "" ∧ f.toFcID ≠ ""

def Store.OnePerPair (st : Store) : Prop :=
  ∀ f ∈ st.rows, ∀ g ∈ st.rows, f.Paired → g.Paired → parties f = parties g → f = g

def RCSFriendship.Keyed (f : RCSFriendship) : Prop := f.toFcID ≠ "" → f.id = getID f.fcID f.toFcID

/-- Ids are unique, and that of a row with two parties is the id of these. -/
structure Store.Keyed (st : Store) : Prop where
  ids : st.IDsUnique
  rows : ∀ f ∈ st.rows, f.Keyed

theorem Store.Keyed.onePerPair (h : st.Keyed) : st.OnePerPair := by
  intro f hf g hg hpf hpg hparties
  refine inj_on_of_nodup_map h.ids hf hg ?_
  rw [h.rows f hf hpf.2, h.rows g hg hpg.2, getID_eq_of_parties hparties]

/-! ## Calls -/

/-- Who is not a party becomes one by an invite of the first party; an invite of somebody else is
sent by the first party, or to the first one by the second. -/
def Call.Between (st : Store) : Call → Prop
  | .membership _ ev => ∀ f stateKey, st.getFriendshipByRoomID ev.roomID = some f →
      ev.stateKey = some stateKey →
      (stateKey ≠ f.fcID → stateKey ≠ f.toFcID →
        textOf ev = some "invite" ∧ ev.sender = f.fcID) ∧
      (textOf ev = some "invite" → ev.sender ≠ stateKey →
        ev.sender = f.fcID ∨ stateKey = f.fcID ∧ (f.toFcID = "" ∨ ev.sender = f.toFcID))
  | _ => True

theorem action_eq_invite_iff {t : Transition} (ht : t ∈ transitions) (ha : t.action ≠ .ignore) :
    t.action = .invite ↔ t.event = "invite" := by
  have hall : ∀ t ∈ transitions, t.action ≠ .ignore →
      (t.action = .invite ↔ t.event = "invite") := by decide
  exact hall t ht ha

theorem RowWrite.keyed (hs : st.Keyed) (hcall : Call.Between st (.membership p ev))
    (h : RowWrite p ev st f) : f.Keyed := by
  have hrow : ∀ g {roomID : String}, st.getFriendshipByRoomID roomID = some g → g.Keyed :=
    fun g _ hg => hs.rows g (getFriendshipByRoomID_eq_some.mp hg).1
  cases h with
  | first g t r hg hkey ht hop ha =>
    intro hto
    have hiff := action_eq_invite_iff ht ha
    show t.rowID ev.sender g.fcID g = getID g.fcID g.toFcID
    unfold Transition.rowID
    split_ifs with hinvite
    · rw [hiff.mp hinvite.1] at hop
      rcases (hcall g g.fcID hg hkey).2 hop hinvite.2 with hfc | ⟨-, hnone | hsender⟩
      · exact absurd hfc hinvite.2
      · exact absurd hnone hto
      · rw [hsender, getID_comm]
    · exact hrow g hg hto
  | second g t stateKey r hg hkey hne ht hop ha =>
    intro hto
    have hiff := action_eq_invite_iff ht ha
    obtain ⟨henter, hinvited⟩ := hcall g stateKey hg hkey
    show t.rowID ev.sender stateKey g = getID g.fcID stateKey
    unfold Transition.rowID
    split_ifs with hinvite
    · rw [hiff.mp hinvite.1] at hop
      rcases hinvited hop hinvite.2 with hfc | ⟨hfc, -⟩
      · rw [hfc]
      · exact absurd hfc hne
    · -- the id stays, so the state key must have been the second party
      by_cases hold : stateKey = g.toFcID
      · subst hold
        exact hrow g hg hto
      · obtain ⟨hop', hfc⟩ := henter hne hold
        have hevent : t.event = "invite" := some.inj (hop.symm.trans hop')
        exact absurd ⟨hiff.mpr hevent, fun he => hne (he ▸ hfc)⟩ hinvite
  | rejoined g stateKey s hg | firstJoins g hg | secondJoins g r hg => exact hrow g hg
  | swapped f₁ f₂ stateKey r => exact fun _ => rfl

theorem keyed_step {call : Call} (hs : st.Keyed) (hcall : call.Between st)
    (h : Call.step st call = some st') : st'.Keyed := by
  cases call with
  | create ev =>
    obtain rfl := some.inj h
    refine ensures_commit_bind.mpr ⟨fun _ => hs, fun t hins => ⟨idsUnique_insert hins hs.ids, ?_⟩⟩
    intro g hg
    rcases ((mem_insert hins).2 g).mp hg with rfl | hold
    · exact fun hto => absurd rfl hto
    · exact hs.rows g hold
  | membership p ev =>
    obtain rfl := some.inj h
    have hw := rewrites_handleMembership p ev st
    exact ⟨hw.ids hs.ids, fun g hg => (hw.rows g hg).elim (hs.rows g) (·.keyed hs hcall)⟩
  | reorder rows =>
    have hperm := perm_of_reorder h
    exact ⟨(hperm.map _).nodup_iff.mpr hs.ids, fun g hg => hs.rows g (hperm.mem_iff.mp hg)⟩

/-- **There is one row for two users**, in every table that is reached from the empty one by calls
for which parties enter by an invite of the first one. -/
theorem one_row_per_pair {calls : List Call}
    (hm : RunMeets Call.step (fun st call => call.Between st) .empty calls)
    (h : run Call.step .empty calls = some st) : st.OnePerPair := by
  have hempty : Store.empty.Keyed := ⟨nodup_nil, fun f hf => absurd hf not_mem_nil⟩
  exact (run_invariant keyed_step hempty hm h).onePerPair

/-! ## Two rows -/

def Call.Handled (st : Store) : Call → Prop
  | .create ev => (handleCreate ev st).1.isOk = true
  | .membership p ev => (handleMembership p ev st).1.isOk = true
  | .reorder rows => rows.Perm st.rows

def aliceAndBob (roomID id : String) (invited : Bool) : List Call :=
  [.create (createEv id roomID "@a:x"),
    .membership serverX (memberEv (id ++ "1") roomID "@a:x" "@a:x" "join")] ++
    (if invited then [.membership serverX (memberEv (id ++ "2") roomID "@a:x" "@b:x" "invite")]
      else []) ++
    [.membership serverX (memberEv (id ++ "3") roomID "@b:x" "@b:x" "join")]

def bothJoined (id roomID eventID : String) : RCSFriendship :=
  ⟨id, roomID, "@a:x", "@b:x", .join, .join, false, false, "a", "b", true, true, "x", "x", eventID⟩

theorem one_row_per_pair_invited :
    run Call.step .empty (aliceAndBob "!r:x" "$1" true) =
        some ⟨[bothJoined "@a:x@b:x" "!r:x" "$13"], nodup_singleton _⟩ ∧
      Store.OnePerPair ⟨[bothJoined "@a:x@b:x" "!r:x" "$13"], nodup_singleton _⟩ := by
  have hrun : run Call.step .empty (aliceAndBob "!r:x" "$1" true) =
      some ⟨[bothJoined "@a:x@b:x" "!r:x" "$13"], nodup_singleton _⟩ := rfl
  have hm : RunMeets Call.step (fun st call => call.Between st) .empty
      (aliceAndBob "!r:x" "$1" true) := by
    refine ⟨trivial, fun f k hf hk => ?_, fun f k hf hk => ?_, fun f k hf hk => ?_, trivial⟩
    all_goals
      obtain rfl := some.inj hf
      obtain rfl := some.inj hk
      decide
  exact ⟨hrun, one_row_per_pair hm hrun⟩

/-- Alice makes two direct rooms, each of which Bob joins without an invite. -/
theorem two_rows_for_a_pair :
    RunMeets Call.step (fun st call => call.Handled st) .empty
        (aliceAndBob "!r:x" "$1" false ++ aliceAndBob "!s:x" "$2" false) ∧
      run Call.step .empty (aliceAndBob "!r:x" "$1" false ++ aliceAndBob "!s:x" "$2" false) =
        some ⟨[bothJoined "$2" "!s:x" "$23", bothJoined "$1" "!r:x" "$13"], by decide⟩ ∧
      ¬ Store.OnePerPair
        ⟨[bothJoined "$2" "!s:x" "$23", bothJoined "$1" "!r:x" "$13"], by decide⟩ := by
  refine ⟨⟨rfl, rfl, rfl, rfl, rfl, rfl, trivial⟩, rfl, fun h => ?_⟩
  have heq := h _ mem_cons_self _ (mem_cons_of_mem _ mem_cons_self)
    ⟨by decide, by decide⟩ ⟨by decide, by decide⟩ rfl
  exact absurd heq (by decide)

end Ligase.Rcs
