import Mathlib.Data.List.Induction
import Ligase.Sync.Ranges

/-!
# Shared ranges and member events

A member event is about the view of its user, but a view ends with a shared range if the last thing
appended to it was one. The departure of its user then ends that range for everybody.

* **`others_unchanged_iff`**: which member events change nothing for others.
-/

namespace Ligase.Sync

open Lib PointerState List Function

section
variable {rs rs' : PointerState} {user u w membership value : String} {pos offset : Int}
  {items : List Ref} {id : Nat}

/-! ## What others see -/

structure SameOthers (user : String) (rs rs' : PointerState) : Prop where
  cells : rs'.cells = rs.cells
  tl : rs'.visiableTl = rs.visiableTl
  view : ∀ w ≠ user, rs'.userMemberView w = rs.userMemberView w
  ok : rs'.userMemberViewOk = rs.userMemberViewOk

theorem SameOthers.ranges (h : SameOthers user rs rs') : rs'.ranges = rs.ranges := by
  rw [PointerState.ranges, PointerState.ranges, h.cells, h.tl]

theorem SameOthers.check (h : SameOthers user rs rs') (hw : w ≠ user) (pos : Int) :
    (rs'.checkEventVisibility w pos).1 = (rs.checkEventVisibility w pos).1 := by
  have hitem : rs'.item = rs.item := by
    funext r
    cases r with
    | own cell => rfl
    | shared id => rw [item, item, h.cells]
  rw [check_eq, check_eq, h.ok, sees, sees, addHistory,
    addHistory, items, items, h.view w hw, h.tl, hitem]

theorem sameOthers_storeView : SameOthers user rs (rs.storeView user items) :=
  ⟨rfl, rfl, fun _ hw => update_of_ne hw _ _, rfl⟩

theorem sameOthers_insertMember : SameOthers user rs (rs.insertMember user membership pos) :=
  ⟨rfl, rfl, fun _ hw => update_of_ne hw _ _, rfl⟩

theorem sameOthers_endLast
    (h : ∀ id, items.getLast? = some (.shared id) → (rs.cells id).item.stop = pos) :
    SameOthers user rs (rs.endLast user items pos) := by
  unfold endLast
  cases hl : items.getLast? with
  | none => exact sameOthers_storeView
  | some r =>
    cases r with
    | own cell => exact sameOthers_storeView
    | shared id =>
      have hself : rs.setStop id pos = rs := by
        have hcell : (rs.cells id).setStop pos = rs.cells id := by rw [Cell.setStop, ← h id hl]
        rw [setStop, hcell, update_eq_self]
      dsimp only
      rw [hself]
      exact sameOthers_storeView

/-- It is processed in order, and it is the departure of a user who is in the room and whose view
ends with a shared range that does not end there already. -/
def PointerState.EndsShared (rs : PointerState) (user membership : String) (pos : Int)
    (backfill : Bool) : Prop :=
  (backfill = false ∨ rs.newer user pos = true) ∧ (membership = "leave" ∨ membership = "ban") ∧
    (rs.members.join user).isSome = true ∧
    ∃ id, (rs.items user).getLast? = some (.shared id) ∧ (rs.cells id).item.stop ≠ pos

theorem getLast?_leaveItems (h : (rs.leaveItems user).getLast? = some (.shared id)) :
    (rs.items user).getLast? = some (.shared id) := by
  unfold leaveItems at h
  split_ifs at h
  · exact absurd h (by simp)
  · exact h

theorem sameOthers_memberRanges (h : ¬rs.EndsShared user membership pos false) :
    SameOthers user rs (rs.memberRanges user membership pos) := by
  unfold memberRanges
  split_ifs with hl hj
  · refine sameOthers_endLast fun id hid => ?_
    by_contra hne
    exact h ⟨.inl rfl, hl.1, hl.2, id, getLast?_leaveItems hid, hne⟩
  · exact sameOthers_storeView
  · exact ⟨rfl, rfl, fun _ _ => rfl, rfl⟩

theorem sameOthers_onEvent {backfill : Bool} (h : ¬rs.EndsShared user membership pos backfill)
    (offset : Int) :
    SameOthers user rs (rs.onEvent (.member user membership) pos offset backfill) := by
  by_cases hlive : (!backfill || rs.newer user pos) = true
  · have he : rs.onEvent (.member user membership) pos offset backfill =
        rs.liveMember user membership pos offset := if_pos hlive
    rw [he, liveMember, onMembership_eq]
    have hlive' : backfill = false ∨ rs.newer user pos = true := by simpa using hlive
    obtain ⟨hc, ht, hv, ho⟩ := sameOthers_memberRanges fun hs => h ⟨hlive', hs.2⟩
    exact ⟨hc, ht, hv, ho⟩
  · have he : rs.onEvent (.member user membership) pos offset backfill =
        rs.insertMember user membership pos := if_neg hlive
    rw [he]
    exact sameOthers_insertMember

/-! ## Pointers to room-wide ranges -/

def Known (rs : PointerState) : Prop :=
  ∀ user id, .shared id ∈ rs.items user → id ∈ rs.visiableTl

theorem Known.storeView (h : Known rs) (hi : ∀ id, .shared id ∈ items → id ∈ rs.visiableTl) :
    Known (rs.storeView user items) := by
  intro u id hid
  unfold PointerState.items PointerState.storeView at hid
  dsimp only at hid
  by_cases hu : u = user
  · rw [hu, update_self] at hid
    exact hi id hid
  · rw [update_of_ne hu] at hid
    exact h u id hid

theorem Known.addHistory (hi : ∀ id, .shared id ∈ items → id ∈ rs.visiableTl) :
    ∀ id, .shared id ∈ rs.addHistory items → id ∈ rs.visiableTl := by
  intro id hid
  rcases mem_addHistory hid with hid | ⟨id', hid', he⟩
  · exact hi id hid
  · rwa [Ref.shared.inj he]

theorem Known.endLast (h : Known rs) (hi : ∀ id, .shared id ∈ items → id ∈ rs.visiableTl) :
    Known (rs.endLast user items pos) := by
  unfold PointerState.endLast
  cases items.getLast? with
  | none => exact h.storeView hi
  | some r =>
    cases r with
    | own cell =>
      refine h.storeView fun id hid => ?_
      rcases mem_append.mp hid with hid | hid
      · exact hi id (dropLast_subset _ hid)
      · exact absurd (mem_singleton.mp hid) (by simp)
    | shared id =>
      have hset := h
      exact hset.storeView hi

theorem shared_mem_orElse {cell : Cell}
    (hid : Ref.shared id ∈ if (rs.items user).isEmpty then [.own cell] else rs.items user) :
    .shared id ∈ rs.items user := by
  split_ifs at hid
  · exact absurd (mem_singleton.mp hid) (by simp)
  · exact hid

theorem Known.memberRanges (h : Known rs) : Known (rs.memberRanges user membership pos) := by
  unfold PointerState.memberRanges
  split_ifs
  · exact h.endLast fun id hid => h user id (shared_mem_orElse hid)
  · refine h.storeView fun id hid => ?_
    rcases mem_append.mp hid with hid | hid
    · exact addHistory (fun id hid => h user id (shared_mem_orElse hid)) id hid
    · exact absurd (mem_singleton.mp hid) (by simp)
  · exact h

theorem ref_eq_shared {v : Slot} (h : v.ref = .shared id) : v.id = some id := by
  unfold Slot.ref at h
  cases hv : v.id with
  | none => simp [hv] at h
  | some id' =>
    rw [hv] at h
    rw [Ref.shared.inj h]

theorem Known.insertMember (h : Known rs) : Known (rs.insertMember user membership pos) := by
  have hview : ∀ id, .shared id ∈ ((rs.insertIntoRanges ((if (rs.items user).isEmpty then
      [Ref.own ⟨⟨rs.createPos, rs.createPos⟩, .none⟩] else rs.items user).map rs.slot) none pos
        (.ofMembership membership)).ranges.map Slot.ref) → id ∈ rs.visiableTl := by
    intro id hid
    obtain ⟨v, hv, hr⟩ := mem_map.mp hid
    obtain ⟨r, hr', he⟩ := mem_map.mp (mem_of_shared hv (ref_eq_shared hr))
    have hid' := ref_eq_shared hr
    rw [← he] at hid'
    cases r with
    | own cell => exact absurd hid' (by simp [slot])
    | shared id' =>
      obtain rfl : id' = id := by simpa [slot] using hid'
      exact h user id' (shared_mem_orElse hr')
  exact h.storeView hview

theorem Known.of_subset (h : Known rs) (hv : rs'.userMemberView = rs.userMemberView)
    (hsub : rs.visiableTl ⊆ rs'.visiableTl) : Known rs' := by
  intro u id hid
  rw [items, hv] at hid
  exact hsub (h u id hid)

theorem Known.onHistoryVisibility (h : Known rs) : Known (rs.onHistoryVisibility value pos) := by
  unfold PointerState.onHistoryVisibility
  split_ifs with hv hs hj
  · exact h.of_subset rfl (subset_append_left _ _)
  · refine h.of_subset ?_ ?_ <;>
    · unfold closeShared
      cases rs.visiableTl.getLast? <;> simp [setStop]
  · exact h.of_subset rfl (List.Subset.refl _)
  · exact h

theorem Known.insertHistoryVisibility (h : Known rs) :
    Known (rs.insertHistoryVisibility value pos) := by
  refine h.of_subset rfl fun id hid => ?_
  have hmem : some id ∈ (rs.visiableTl.map fun id => rs.slot (.shared id)).map Slot.id :=
    mem_map.mpr ⟨_, mem_map.mpr ⟨id, hid, rfl⟩, rfl⟩
  obtain ⟨v, hv, he⟩ := mem_map.mp (id_mem_insertIntoRanges rs (some rs.next) pos
    (.ofHistoryVisibility value) hmem)
  exact mem_filterMap.mpr ⟨v, hv, he⟩

theorem act_preserves {P : PointerState → Prop} (a : Action) (h : P rs)
    (hcreate : ∀ pos, P { rs with createPos := pos })
    (hlive : ∀ user membership pos offset, P (rs.liveMember user membership pos offset))
    (hlate : ∀ user membership pos, P (rs.insertMember user membership pos))
    (hchange : ∀ value pos, P (rs.onHistoryVisibility value pos))
    (hinsert : ∀ value pos, P (rs.insertHistoryVisibility value pos))
    (hquery : ∀ user, P (rs.queried user)) : P (rs.act a) := by
  cases a with
  | query user => exact hquery user
  | event ev pos offset backfill =>
    cases ev with
    | create =>
      change P (if backfill then rs else { rs with createPos := pos })
      split_ifs
      · exact h
      · exact hcreate pos
    | member user membership =>
      change P (if !backfill || rs.newer user pos then rs.liveMember user membership pos offset
        else rs.insertMember user membership pos)
      split_ifs
      · exact hlive user membership pos offset
      · exact hlate user membership pos
    | historyVisibility value =>
      change P (if !backfill || rs.historyVisibilityPos < pos then
        rs.onHistoryVisibility value pos else rs.insertHistoryVisibility value pos)
      split_ifs
      · exact hchange value pos
      · exact hinsert value pos

theorem Known.queried (h : Known rs) (user : String) : Known (rs.queried user) := by
  unfold PointerState.queried
  split_ifs
  · exact h
  · exact h.storeView (addHistory (h user))

theorem Known.act (h : Known rs) (a : Action) : Known (rs.act a) := by
  refine act_preserves a h (fun _ => h) (fun user membership pos offset => ?_)
    (fun _ _ _ => h.insertMember) (fun _ _ => h.onHistoryVisibility)
    (fun _ _ => h.insertHistoryVisibility) h.queried
  rw [liveMember, onMembership_eq]
  exact h.memberRanges

def reached (acts : List Action) : PointerState := acts.foldl PointerState.act .newRoomState

theorem reached_induction {P : PointerState → Prop} (h : P .newRoomState)
    (hact : ∀ rs a, P rs → P (rs.act a)) (acts : List Action) : P (reached acts) := by
  induction acts using reverseRecOn with
  | nil => exact h
  | append_singleton acts a ih =>
    rw [reached, foldl_append]
    exact hact _ a ih

theorem known_reached (acts : List Action) : Known (reached acts) := by
  refine reached_induction (fun user id hid => ?_) (fun _ a h => h.act a) acts
  exact absurd hid (by simp [items, newRoomState])

/-! ## Departures -/

theorem ranges_ne_of_endsShared {backfill : Bool} (hk : Known rs)
    (h : rs.EndsShared user membership pos backfill) :
    (rs.onEvent (.member user membership) pos offset backfill).ranges ≠ rs.ranges := by
  obtain ⟨hlive, hm, hj, id, hl, hne⟩ := h
  have he : rs.onEvent (.member user membership) pos offset backfill =
      rs.liveMember user membership pos offset := if_pos (by simpa using hlive)
  have hitems : rs.leaveItems user = rs.items user := by
    refine if_neg fun hnil => ?_
    rw [isEmpty_iff.mp hnil] at hl
    exact absurd hl (by simp)
  have hend : rs.memberRanges user membership pos =
      (rs.setStop id pos).storeView user (rs.items user) := by
    rw [memberRanges, if_pos ⟨hm, hj⟩, hitems, endLast, hl]
  rw [he, liveMember, onMembership_eq, hend]
  intro hr
  have hid := hk user id (mem_of_getLast? hl)
  have hitem := map_inj_left.mp hr id hid
  simp only [storeView, setStop, update_self] at hitem
  exact hne (congrArg RangeItem.stop hitem).symm

/-- A member event leaves what the others see and the room-wide ranges as they are, unless it ends a
shared range. -/
theorem others_unchanged_iff (acts : List Action) (user membership : String) (pos offset : Int)
    (backfill : Bool) :
    ((∀ w ≠ user, ∀ p,
        (((reached acts).onEvent (.member user membership) pos offset
          backfill).checkEventVisibility w p).1 = ((reached acts).checkEventVisibility w p).1) ∧
      ((reached acts).onEvent (.member user membership) pos offset backfill).ranges =
        (reached acts).ranges) ↔
    ¬(reached acts).EndsShared user membership pos backfill := by
  constructor
  · exact fun h hs => ranges_ne_of_endsShared (known_reached acts) hs h.2
  · intro h
    have hsame := sameOthers_onEvent h offset
    exact ⟨fun w hw p => hsame.check hw p, hsame.ranges⟩

/-- A user joins a room whose history was shared before; the events of that time arrive later, and
the user's next query appends the shared range to the view. -/
def joinedAfterShared : List Action :=
  [.event .create 1 1 false, .event (.member "@u:x" "join") 10 2 false,
    .event (.historyVisibility "shared") 5 3 true, .event (.historyVisibility "joined") 9 4 true,
    .query "@u:x"]

/-- The user leaves, and somebody else sees what was written after the history was not shared any
more. -/
theorem departure_extends_shared :
    (reached joinedAfterShared).ranges = [⟨5, 8⟩] ∧
    ((reached joinedAfterShared).checkEventVisibility "@w:x" 15).1 = false ∧
    ((reached joinedAfterShared).onEvent (.member "@u:x" "leave") 20 5 false).ranges = [⟨5, 20⟩] ∧
    (((reached joinedAfterShared).onEvent (.member "@u:x" "leave") 20 5
      false).checkEventVisibility "@w:x" 15).1 = true ∧
    (((reached joinedAfterShared).onEvent (.member "@u:x" "leave") 20 5
      false).checkEventVisibility "@u:x" 25).1 = true := by
  decide

end

end Ligase.Sync
