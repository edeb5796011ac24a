import Ligase.Aggregate.Response

/-!
# A token that cannot be stored

If the token cannot be stored, the rooms are taken out of the response again so that the next
request repeats the batch. The stages after it add to the response nevertheless.

* **`repeats_iff`**: when the next request repeats the batch.
-/

namespace Ligase.Aggregate

open Lib List Option

variable {svc : Services} {req : Request}

/-! ## Merging -/

def Rooms.Made (rooms : Rooms) : Prop :=
  rooms.join ≠ .nil ∧ rooms.invite ≠ .nil ∧ rooms.leave ≠ .nil

theorem addSyncData_made {m : Merge} (h : m.res.rooms.Made) (data : SyncServerResponse) :
    ∃ m', addSyncData svc req m data = some m' ∧ m'.res.rooms.Made := by
  obtain ⟨hj, hi, hl⟩ := h
  obtain ⟨join, hjoin, hj'⟩ := GoMap.setAll_of_ne_nil hj data.join
  obtain ⟨invite, hinvite, hi'⟩ := GoMap.setAll_of_ne_nil hi data.invite
  obtain ⟨leave, hleave, hl'⟩ : ∃ leave, mergeLeave req m data = some leave ∧ leave ≠ .nil := by
    unfold mergeLeave
    split_ifs
    · exact ⟨_, rfl, by simp [GoMap.make]⟩
    · exact GoMap.setAll_of_ne_nil hl data.leave
  simp only [addSyncData, hjoin, hinvite, hleave, bind_eq_bind, bind_some]
  exact ⟨_, rfl, hj', hi', hl'⟩

variable (svc req) in
theorem mergeAnswers_made : ∃ m, mergeAnswers svc req = some m ∧ m.res.rooms.Made := by
  have hfold : ∀ (answers : List SyncServerResponse) (m : Merge), m.res.rooms.Made →
      ∃ m', answers.foldlM (addSyncData svc req) m = some m' ∧ m'.res.rooms.Made := by
    intro answers
    induction answers with
    | nil => exact fun m hm => ⟨m, rfl, hm⟩
    | cons data answers ih =>
      intro m hm
      obtain ⟨m', hm', hmade⟩ := addSyncData_made hm data
      obtain ⟨m'', hm'', hmade'⟩ := ih m' hmade
      refine ⟨m'', ?_, hmade'⟩
      rw [foldlM_cons, hm']
      exact hm''
  exact hfold _ _ ⟨by simp [newResponse, GoMap.make], by simp [newResponse, GoMap.make],
    by simp [newResponse, GoMap.make]⟩

/-! ## The stages after the token -/

structure Job.Same (a b : Job) : Prop where
  rooms : b.res.rooms = a.res.rooms
  utl : b.marks.utl = a.marks.utl

theorem Job.Same.trans {a b c : Job} (h : a.Same b) (h' : b.Same c) : a.Same c :=
  ⟨h'.rooms.trans h.rooms, h'.utl.trans h.utl⟩

theorem Job.Same.refl (a : Job) : a.Same a := ⟨rfl, rfl⟩

variable (svc req) in
theorem same_addPushRules (job : Job) : job.Same (addPushRules svc req job) := by
  unfold addPushRules
  split_ifs
  · exact .refl job
  · split
    · exact ⟨rfl, rfl⟩
    · exact .refl job

variable (svc req) in
theorem same_addPresenceUnlessSent (job : Job) : job.Same (addPresenceUnlessSent svc req job) := by
  unfold addPresenceUnlessSent
  split_ifs
  · exact .refl job
  · exact ⟨rfl, rfl⟩

variable (svc req) in
theorem same_addKeyChangeInfo (job : Job) : job.Same (addKeyChangeInfo svc req job) := by
  unfold addKeyChangeInfo
  split_ifs <;> exact ⟨rfl, rfl⟩

variable (svc req) in
theorem same_addSendToDevice (job : Job) : job.Same (addSendToDevice svc req job) := by
  unfold addSendToDevice
  split
  · exact .refl job
  · split_ifs <;> exact ⟨rfl, rfl⟩

variable (svc req) in
theorem same_addEncryption (job : Job) : job.Same (addEncryption svc req job) := by
  have hstd := same_addSendToDevice svc req
  have hkc := same_addKeyChangeInfo svc req job
  unfold addEncryption
  split_ifs
  · split
    · exact (hkc.trans (hstd _)).trans ⟨rfl, rfl⟩
    · exact hkc.trans (hstd _)
  · exact ⟨rfl, rfl⟩
  · exact (hstd job).trans ⟨rfl, rfl⟩
  · exact ⟨rfl, rfl⟩

theorem writeRooms_of_nil {job : Job} (h : job.res.rooms.join = .nil) (ws : List RoomWrite) :
    writeRooms ws job = if ws = [] then some job else none := by
  cases ws with
  | nil => rfl
  | cons w ws =>
    have hw : RoomWrite.apply job w = none := by rw [RoomWrite.apply, h]; rfl
    rw [if_neg (by simp), writeRooms, foldlM_cons, hw]
    rfl

variable (svc req) in
theorem same_setFullAcc (job : Job) : job.Same (setFullAcc svc req job) := by
  unfold setFullAcc
  split
  · exact .refl job
  · exact ⟨rfl, rfl⟩

variable (svc req) in
theorem same_setIncrementalAcc (data : List (Int × ClientData)) (job : Job) :
    job.Same (setIncrementalAcc svc req data job) := by
  unfold setIncrementalAcc
  split_ifs
  · exact (same_addPushRules svc req job).trans ⟨rfl, rfl⟩
  · exact ⟨rfl, rfl⟩

/-! ## Quiet requests -/

/-- Tags and account data can be read, and none of them is for a joined room. -/
def QuietData (svc : Services) (accountIDs : List String) (tags rooms : Option (List RoomWrite)) :
    Prop :=
  (tags = some [] ∧ ∀ id ∈ accountIDs, (svc.accountData id).isSome) ∧ rooms = some []

def QuietAccount (svc : Services) (req : Request) : Prop :=
  if req.marks.acc.recv = 0 then
    QuietData svc (svc.accountDataIDs.getD []) (fullTagWrites svc) (fullRoomWrites svc)
  else ∀ feedUp stream, svc.clientData = some (feedUp, stream) → req.marks.acc.recv < feedUp →
    QuietData svc (changedAccountIDs req (newClientData req stream))
      (changedTagWrites svc req (newClientData req stream))
      (changedRoomWrites svc req (newClientData req stream))

/-- After the token nothing fails to be read, and there is nothing to write to a joined room. -/
def Quiet (svc : Services) (req : Request) : Prop :=
  req.isHuman = true → QuietAccount svc req ∧ typingWrites svc = []

/-- On a response without joined rooms a stage keeps the rooms if it is quiet, and panics otherwise.
-/
def Guarded (quiet : Prop) (stage : Job → Option Job) : Prop :=
  ∀ job : Job, job.res.rooms.join = .nil →
    (quiet → ∃ job', stage job = some job' ∧ job.Same job') ∧ (¬ quiet → stage job = none)

theorem guarded_same {f : Job → Job} (h : ∀ job : Job, job.Same (f job)) :
    Guarded True fun job => some (f job) :=
  fun job _ => ⟨fun _ => ⟨f job, rfl, h job⟩, fun hq => absurd trivial hq⟩

theorem guarded_writeRooms (ws : List RoomWrite) : Guarded (ws = []) (writeRooms ws) := by
  intro job h
  rw [writeRooms_of_nil h]
  exact ⟨fun hq => ⟨job, if_pos hq, .refl job⟩, fun hq => if_neg hq⟩

theorem guarded_writeRead (ws : Option (List RoomWrite)) :
    Guarded (ws = some []) (writeRead ws) := by
  intro job h
  cases ws with
  | none => exact ⟨nofun, fun _ => rfl⟩
  | some ws =>
    rw [some_inj]
    exact guarded_writeRooms ws job h

theorem mapM_isSome_iff {α β : Type} {f : α → Option β} {l : List α} :
    (l.mapM f).isSome ↔ ∀ a ∈ l, (f a).isSome := by
  induction l with
  | nil => simp
  | cons a l ih =>
    rw [mapM_cons, forall_mem_cons, ← ih]
    cases f a <;> cases l.mapM f <;> simp

variable (svc) in
theorem guarded_addClientAccountData (ids : List String) :
    Guarded (∀ id ∈ ids, (svc.accountData id).isSome) (addClientAccountData svc ids) := by
  intro job _
  rw [← mapM_isSome_iff, addClientAccountData]
  cases ids.mapM svc.accountData with
  | none => exact ⟨nofun, fun _ => rfl⟩
  | some actData => exact ⟨fun _ => ⟨_, rfl, rfl, rfl⟩, fun hq => absurd rfl hq⟩

section
variable {p q : Prop} {f g : Job → Option Job}

theorem Guarded.bind (hf : Guarded p f) (hg : Guarded q g) :
    Guarded (p ∧ q) fun job => (f job).bind g := by
  intro job h
  obtain ⟨hquiet, hloud⟩ := hf job h
  beta_reduce
  by_cases hp : p
  · obtain ⟨job', hjob', hsame⟩ := hquiet hp
    obtain ⟨hquiet', hloud'⟩ := hg job' (hsame.rooms ▸ h)
    rw [hjob', bind_some]
    refine ⟨fun hpq => ?_, fun hpq => hloud' fun hq => hpq ⟨hp, hq⟩⟩
    obtain ⟨job'', hjob'', hsame'⟩ := hquiet' hpq.2
    exact ⟨job'', hjob'', hsame.trans hsame'⟩
  · rw [hloud hp]
    exact ⟨fun hpq => absurd hpq.1 hp, fun _ => rfl⟩

variable {f : Job → Job} (hg : Guarded q g) (hf : ∀ job : Job, job.Same (f job))
include hg hf

theorem Guarded.comp : Guarded q fun job => g (f job) := by
  intro job h
  have hj := (guarded_same hf).bind hg job h
  rwa [true_and] at hj

theorem Guarded.then : Guarded q fun job => (g job).bind fun job => some (f job) := by
  intro job h
  have hj := hg.bind (guarded_same hf) job h
  rwa [and_true] at hj

end

theorem guarded_data {accountIDs : List String} {tags rooms : Option (List RoomWrite)}
    {f g : Job → Job} (hf : ∀ job : Job, job.Same (f job)) (hg : ∀ job : Job, job.Same (g job)) :
    Guarded (QuietData svc accountIDs tags rooms) fun job => do
      let job ← writeRead tags (f job)
      let job ← addClientAccountData svc accountIDs job
      let job ← writeRead rooms job
      return g job := by
  have h := ((((guarded_writeRead tags).comp hf).bind
    (guarded_addClientAccountData svc accountIDs)).bind (guarded_writeRead rooms)).then hg
  intro job hjob
  have hj := h job hjob
  simp only [bind_assoc] at hj
  exact hj

variable (svc req) in
theorem guarded_addAccountData : Guarded (QuietAccount svc req) (addAccountData svc req) := by
  intro job hjob
  unfold QuietAccount addAccountData
  by_cases h0 : req.marks.acc.recv = 0
  · rw [if_pos h0, if_pos h0]
    exact guarded_data (same_addPushRules svc req) (same_setFullAcc svc req) job hjob
  · rw [if_neg h0, if_neg h0, addIncrementalAccountData]
    cases svc.clientData with
    | none => exact ⟨fun _ => ⟨job, rfl, .refl job⟩, fun hq => absurd nofun hq⟩
    | some data =>
      obtain ⟨feedUp, stream⟩ := data
      by_cases hfeed : feedUp ≤ req.marks.acc.recv
      · simp only [if_pos hfeed]
        refine ⟨fun _ => ⟨job, rfl, .refl job⟩, fun hq => absurd ?_ hq⟩
        rintro _ _ ⟨⟩ hlt
        exact absurd hfeed (Int.not_le.mpr hlt)
      · simp only [if_neg hfeed]
        have hdata : Guarded (QuietData svc (changedAccountIDs req (newClientData req stream))
            (changedTagWrites svc req (newClientData req stream))
            (changedRoomWrites svc req (newClientData req stream))) _ :=
          guarded_data (f := id) Job.Same.refl
            (same_setIncrementalAcc svc req (newClientData req stream))
        have hj := hdata job hjob
        refine ⟨fun hq => hj.1 (hq _ _ rfl (Int.not_le.mp hfeed)), fun hq => hj.2 fun hd => hq ?_⟩
        rintro _ _ ⟨⟩ -
        exact hd

variable (svc req) in
theorem guarded_addUserData : Guarded (Quiet svc req) (addUserData svc req) := by
  intro job hjob
  unfold Quiet addUserData
  by_cases hu : req.isHuman = true
  · rw [if_pos hu]
    have hacc := (guarded_addAccountData svc req).comp (same_addPresenceUnlessSent svc req)
    have htyping := (guarded_writeRooms (typingWrites svc)).comp (same_addEncryption svc req)
    have hj := hacc.bind htyping job hjob
    exact ⟨fun hq => hj.1 (hq hu), fun hq => hj.2 fun hd => hq fun _ => hd⟩
  · rw [if_neg hu]
    exact ⟨fun _ => ⟨job, rfl, .refl job⟩, fun hq => absurd (fun h => absurd h hu) hq⟩

/-! ## The response -/

def Rooms.NoEvents (rooms : Rooms) : Prop :=
  (∀ p ∈ rooms.join.toList, p.2.state = [] ∧ p.2.timeline = [] ∧ p.2.ephemeral = [] ∧
    p.2.accountData = []) ∧
  (∀ p ∈ rooms.invite.toList, p.2.inviteState = []) ∧
  ∀ p ∈ rooms.leave.toList, p.2.state = [] ∧ p.2.timeline = []

/-- The response is built, its token has the position of the request, and its rooms have no
events. -/
def Repeats (req : Request) (out : Option (Nat × Response)) : Prop :=
  ∃ status res, out = some (status, res) ∧
    (OffsetMarks.init res.nextBatch).map (fun marks => marks.utl.recv) = some req.marks.utl.recv ∧
    res.rooms.NoEvents

def shownInvites (svc : Services) (req : Request) (rooms : Rooms) : List ClientEvent :=
  (if svc.useMessageFilter then filterSyncData req rooms else rooms).invite.toList.flatMap
    fun p => p.2.inviteState

theorem without_nil {α : Type} (roomIDs : List String) :
    without roomIDs (GoMap.nil : GoMap α) = .nil := by
  induction roomIDs with
  | nil => rfl
  | cons roomID roomIDs ih => exact ih

variable (svc req) in
theorem finalRooms_of_nil {rooms : Rooms} (hj : rooms.join = .nil) (hl : rooms.leave = .nil) :
    (finalRooms svc req rooms).join = .nil ∧ (finalRooms svc req rooms).leave = .nil := by
  have hf : ∀ filter : Filter, (filter.rooms req rooms).join = .nil ∧
      (filter.rooms req rooms).leave = .nil := by
    intro filter
    simp only [Filter.rooms, hj, hl, without_nil, ite_self]
    exact ⟨rfl, trivial⟩
  have hs : ∀ r : Rooms, r.join = .nil ∧ r.leave = .nil →
      (fillSortEventOffset r).join = .nil ∧ (fillSortEventOffset r).leave = .nil := by
    rintro r ⟨h1, h2⟩
    simp only [fillSortEventOffset, h1, h2]
    exact ⟨rfl, rfl⟩
  unfold finalRooms filterSyncData
  apply hs
  split_ifs
  · split
    · exact hf _
    · exact ⟨hj, hl⟩
  · exact ⟨hj, hl⟩

theorem sortEvents_eq_nil {events : List ClientEvent} : sortEvents events = [] ↔ events = [] := by
  rw [sortEvents, ← length_eq_zero_iff, length_insertionSort, length_eq_zero_iff]

theorem shownInvites_eq_nil {rooms : Rooms} : shownInvites svc req rooms = [] ↔
    ∀ p ∈ (finalRooms svc req rooms).invite.toList, p.2.inviteState = [] := by
  simp only [shownInvites, finalRooms, fillSortEventOffset, GoMap.toList_mapValues,
    List.forall_mem_map, sortEvents_eq_nil, flatMap_eq_nil_iff]

theorem shownInvites_clearSyncData (res : Response) :
    shownInvites svc req (clearSyncData res).rooms = shownInvites svc req res.rooms := by
  unfold shownInvites filterSyncData
  split_ifs
  · split <;> rfl
  · rfl

theorem utl_finish {job : Job} (h : job.marks.utl.process = req.marks.utl.recv) :
    (OffsetMarks.init (finish svc req job).nextBatch).map (fun marks => marks.utl.recv) =
      some req.marks.utl.recv := by
  show (OffsetMarks.init job.marks.build).map _ = _
  rw [init_build, map_some, readBack_eq (by rw [h]; exact req.utl_range)]
  exact congrArg some h

theorem repeats_addUserData {job : Job} {res : Response} (hres : job.res = clearSyncData res)
    (hutl : job.marks.utl.process = req.marks.utl.recv) :
    Repeats req ((addUserData svc req job).map fun job => (200, finish svc req job)) ↔
      Quiet svc req ∧ shownInvites svc req res.rooms = [] := by
  have hjoin : job.res.rooms.join = .nil := by rw [hres]; rfl
  have hleave : job.res.rooms.leave = .nil := by rw [hres]; rfl
  have hg := guarded_addUserData svc req job hjoin
  by_cases hw : Quiet svc req
  · obtain ⟨job', hjob', hsame⟩ := hg.1 hw
    have hrooms : (finish svc req job').rooms = finalRooms svc req job.res.rooms := by
      rw [← hsame.rooms]
      rfl
    have hnil := finalRooms_of_nil svc req hjoin hleave
    have hinv : shownInvites svc req res.rooms = [] ↔
        ∀ p ∈ (finish svc req job').rooms.invite.toList, p.2.inviteState = [] := by
      rw [hrooms, ← shownInvites_eq_nil, hres, shownInvites_clearSyncData]
    rw [hjob', map_some, hinv]
    constructor
    · rintro ⟨status, r, hr, -, hev⟩
      cases hr
      exact ⟨hw, hev.2.1⟩
    · rintro ⟨-, hev⟩
      refine ⟨200, _, rfl, utl_finish (by rw [hsame.utl, hutl]), ?_, hev, ?_⟩
      · rw [hrooms, hnil.1]
        exact fun p hp => (nomatch hp)
      · rw [hrooms, hnil.2]
        exact fun p hp => (nomatch hp)
  · rw [hg.2 hw]
    exact ⟨fun ⟨_, _, h, _⟩ => (nomatch h), fun h => absurd h.1 hw⟩

/-- **A token that cannot be stored.** The response has the position of the request and no events in
its rooms, if and only if the later stages can read their data and write nothing to a joined room,
and no invite is shown. -/
theorem repeats_iff (hbot : req.isHuman = true ∨ req.isFullSync = false)
    (hready : svc.answers.all Option.isSome = true) :
    ∃ m, mergeAnswers svc req = some m ∧
      (m.hasNewEvent = true → svc.setToken svc.nextID (tokenOffsets req m) = false →
        (Repeats req (onSyncRequest svc req) ↔
          Quiet svc req ∧ shownInvites svc req m.res.rooms = [])) := by
  obtain ⟨m, hm, -⟩ := mergeAnswers_made svc req
  refine ⟨m, hm, fun hnew hfail => ?_⟩
  have hcond : ¬ (req.isFullSync && !req.isHuman) = true := by
    rcases hbot with h | h <;> simp [h]
  have hbuild : buildSyncData svc req = some (some ⟨(mergedMarks req m).setUtl req.marks.utl.recv,
      clearSyncData m.res⟩) := by
    rw [buildSyncData, if_neg hcond, hm, map_some, if_pos hready, freshToken, hnew, hfail]
    rfl
  rw [onSyncRequest, hbuild]
  exact repeats_addUserData rfl rfl

/-! ### A request of Alice -/

def alice : Request where
  userID := "@alice:x"
  isHuman := true
  isActualDevice := false
  token := "utl:5_acc:1_rec:1_pre:1_kc:1_std:1"
  marks := ⟨.both 5, .both 1, .both 1, .both 1, .both 1, .both 1⟩
  utl_range := by decide
  fullSync := false
  filter := none
  offsets := []

def hello : ClientEvent := ⟨"$1", "!r:x", "m.room.message", .obj [], 1⟩

def messageAnswer : SyncServerResponse :=
  ⟨[("!r:x", { JoinResponse.new with timeline := [hello] })], [], [], 0, [], [("!r:x", 7)]⟩

def inviteAnswer : SyncServerResponse :=
  ⟨[], [("!i:x", ⟨[⟨"$2", "!i:x", "m.room.member", .obj [], 1⟩]⟩)], [], 0, [], [("!i:x", 3)]⟩

def failing (answer : SyncServerResponse) : Services where
  sendMemberEvent := true
  useEncrypt := false
  useMessageFilter := false
  answers := [some answer]
  nextID := 6
  setToken := fun _ _ => false
  joinRooms := some ["!r:x"]
  inviteRooms := some []
  presence := fun _ => none
  existsPresence := false
  friendShip := none
  clientData := some (1, [])
  roomTagIDs := none
  roomTag := fun _ => none
  accountDataIDs := none
  accountData := fun _ => none
  roomAccountDataIDs := none
  roomAccountData := fun _ => none
  pushRules := none
  stdEvents := none
  deleteStd := true
  keyChange := fun _ => none
  existsKeyChange := false
  latestKeyChange := 0
  oneTimeKeyCount := none
  defaultKeyCount := []
  typing := []
  curRoomID := ""

def failingTagged : Services :=
  { failing messageAnswer with
    clientData := some (2, [(2, .roomTag "!r:x")])
    roomTagIDs := some ["room_tags:@alice:x:!r:x:m.favourite"]
    roomTag := fun _ => some ⟨"!r:x", "m.favourite", some (.obj [])⟩ }

theorem repeats_iff_message : Repeats alice (onSyncRequest (failing messageAnswer) alice) := by
  obtain ⟨m, hm, h⟩ := @repeats_iff (failing messageAnswer) alice (.inl rfl) rfl
  cases hm
  refine (h rfl rfl).mpr ⟨fun _ => ⟨?_, rfl⟩, rfl⟩
  rintro _ _ ⟨⟩ hlt
  exact absurd hlt (by decide)

/-- With a tag the request panics, and an invite is returned although it will come again. -/
theorem not_repeats :
    ((mergeAnswers failingTagged alice).map Merge.hasNewEvent = some true ∧
      onSyncRequest failingTagged alice = none) ∧
    (mergeAnswers (failing inviteAnswer) alice).map Merge.hasNewEvent = some true ∧
      ∃ res, onSyncRequest (failing inviteAnswer) alice = some (200, res) ∧
        ¬ res.rooms.NoEvents := by
  refine ⟨⟨rfl, by decide +kernel⟩, rfl, _, rfl, fun h => ?_⟩
  exact (nomatch h.2.1 _ mem_cons_self)

end Ligase.Aggregate
