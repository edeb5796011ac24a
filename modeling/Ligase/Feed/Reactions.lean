import Ligase.Feed.Relations
import Ligase.Lib.Run

/-!
# Reaction counts

The reactions to an event are counted one by one, in the unsigned data of the event.

* **`counts_exact`**: the runs in which the counts are those of the reactions not redacted.
-/

namespace Ligase.Feed

open Lib List Option Function

/-! ## Tallies -/

/-- The list has one entry for each key that occurs, with the number of times it does. -/
structure Tally (l : List Annotation) (n : String → Nat) : Prop where
  nodup : (l.map Annotation.key).Nodup
  count : ∀ a ∈ l, a.count = n a.key
  listed : ∀ k, k ∈ l.map Annotation.key ↔ 0 < n k

variable {n : String → Nat} {l : List Annotation}

theorem tally_nil : Tally [] n ↔ ∀ k, n k = 0 := by
  constructor
  · intro h k
    have hk := (h.listed k).not.mp (not_mem_nil)
    omega
  · intro h
    exact ⟨nodup_nil, fun a ha => (nomatch ha), fun k => by simp [h k]⟩

theorem tally_cons {a : Annotation} :
    Tally (a :: l) n ↔ a.count = n a.key ∧ 0 < n a.key ∧ Tally l (update n a.key 0) := by
  constructor
  · intro h
    obtain ⟨ha, hl⟩ := nodup_cons.mp h.nodup
    refine ⟨h.count a mem_cons_self, (h.listed _).mp mem_cons_self, hl, ?_, ?_⟩
    · intro b hb
      have hne : b.key ≠ a.key := fun e => ha (e ▸ mem_map_of_mem hb)
      rw [update_of_ne hne]
      exact h.count b (mem_cons_of_mem _ hb)
    · intro k
      by_cases hk : k = a.key
      · subst hk
        simp [ha]
      · rw [update_of_ne hk, ← h.listed k]
        simp [hk]
  · rintro ⟨hc, hpos, h⟩
    have ha : a.key ∉ l.map Annotation.key := by simp [h.listed]
    refine ⟨nodup_cons.mpr ⟨ha, h.nodup⟩, ?_, ?_⟩
    · intro b hb
      rcases mem_cons.mp hb with rfl | hb
      · exact hc
      · have hne : b.key ≠ a.key := fun e => ha (e ▸ mem_map_of_mem hb)
        rw [h.count b hb, update_of_ne hne]
    · intro k
      by_cases hk : k = a.key
      · subst hk
        simp [hpos]
      · rw [map_cons, mem_cons, h.listed, update_of_ne hk]
        simp [hk]

theorem tally_increment (type key : String) (h : Tally l n) :
    ∃ l', increment type key (l.map some) = some (l'.map some) ∧
      Tally l' (update n key (n key + 1)) := by
  induction l generalizing n with
  | nil =>
    have h0 := tally_nil.mp h
    refine ⟨[⟨type, key, 1⟩], rfl, tally_cons.mpr ⟨?_, ?_, tally_nil.mpr fun k => ?_⟩⟩
    · simp [h0]
    · simp
    · by_cases hk : k = key <;> simp [update, hk, h0]
  | cons a l ih =>
    obtain ⟨hc, hpos, hl⟩ := tally_cons.mp h
    by_cases hk : a.key = key
    · subst hk
      refine ⟨{ a with count := a.count + 1 } :: l, by simp [increment],
        tally_cons.mpr ⟨?_, ?_, ?_⟩⟩
      · simp [hc]
      · simp
      · simpa using hl
    · obtain ⟨l', hl', ht⟩ := ih hl
      refine ⟨a :: l', by simp [increment, hk, hl'], tally_cons.mpr ⟨?_, ?_, ?_⟩⟩
      · rw [update_of_ne hk, hc]
      · rwa [update_of_ne hk]
      · rw [update_comm (Ne.symm hk)]
        rwa [update_of_ne (Ne.symm hk)] at ht

theorem tally_decrement (key : String)
    (h : Tally l n) (hn : 0 < n key) :
    ∃ l', decrement key (l.map some) = some (l'.map some) ∧
      Tally l' (update n key (n key - 1)) := by
  induction l generalizing n with
  | nil =>
    have h0 := tally_nil.mp h key
    omega
  | cons a l ih =>
    obtain ⟨hc, hpos, hl⟩ := tally_cons.mp h
    by_cases hk : a.key = key
    · subst hk
      by_cases h1 : a.count - 1 ≤ 0
      · have h0 : n a.key - 1 = 0 := by omega
        refine ⟨l, by simp [decrement, h1], ?_⟩
        rwa [h0]
      · refine ⟨{ a with count := a.count - 1 } :: l, by simp [decrement, h1],
          tally_cons.mpr ⟨?_, ?_, ?_⟩⟩
        · simp only [update_self]
          omega
        · simp only [update_self]
          omega
        · simpa using hl
    · have hn' : 0 < update n a.key 0 key := by
        rwa [update_of_ne (Ne.symm hk)]
      obtain ⟨l', hl', ht⟩ := ih hl hn'
      refine ⟨a :: l', by simp [decrement, hk, hl'], tally_cons.mpr ⟨?_, ?_, ?_⟩⟩
      · rw [update_of_ne hk, hc]
      · rwa [update_of_ne hk]
      · rw [update_comm (Ne.symm hk)]
        rwa [update_of_ne (Ne.symm hk)] at ht

/-! ### Tallies in unsigned data -/

def Unsigned.annotations (u : Unsigned) : List (Option Annotation) :=
  ((u.relations.bind EventRelations.anno).getD none).getD []

def Unsigned.Tallies (u : Unsigned) (n : String → Nat) : Prop :=
  ∃ l : List Annotation, u.annotations = l.map some ∧ Tally l n

theorem Unsigned.Tallies.addReaction {u : Unsigned} (h : u.Tallies n) (type key : String) :
    ∃ u', u.addReaction type key = some u' ∧ u'.Tallies (update n key (n key + 1)) := by
  obtain ⟨l, hl, ht⟩ := h
  obtain ⟨l', hl', ht'⟩ := tally_increment type key ht
  rw [← hl] at hl'
  obtain ⟨txnID, _ | ⟨relayTo, _ | _ | chunk⟩⟩ := u
  all_goals
    simp only [annotations, increment, bind_none, bind_some,
      getD_none, getD_some, some.injEq] at hl'
  iterate 3 exact ⟨_, rfl, l', hl', ht'⟩
  · exact ⟨⟨txnID, some ⟨relayTo, some (some (l'.map some))⟩⟩, by simp [Unsigned.addReaction, hl'],
      l', rfl, ht'⟩

theorem Unsigned.Tallies.removeReaction {u : Unsigned} (h : u.Tallies n)
    {key : String} (hn : 0 < n key) :
    ∃ u', u.removeReaction key = some (some u') ∧
      u'.Tallies (update n key (n key - 1)) := by
  obtain ⟨l, hl, ht⟩ := h
  obtain ⟨l', hl', ht'⟩ := tally_decrement key ht hn
  have hne : l ≠ [] := by
    rintro rfl
    have h0 := tally_nil.mp ht key
    omega
  rw [← hl] at hl'
  obtain ⟨txnID, _ | ⟨relayTo, _ | _ | chunk⟩⟩ := u
  iterate 3 exact absurd (map_eq_nil_iff.mp hl.symm) hne
  have hd : decrement key chunk = some (l'.map some) := hl'
  simp only [Unsigned.removeReaction, hd, map_some]
  by_cases hnil : l'.map some = []
  · have he : l' = [] := map_eq_nil_iff.mp hnil
    split_ifs
    all_goals exact ⟨_, rfl, l', by rw [he]; rfl, ht'⟩
  · rw [if_neg hnil]
    exact ⟨_, rfl, l', rfl, ht'⟩

/-! ## Entries of the timeline -/

namespace TimeLine

variable {tl tl' : TimeLine} {ev e : ClientEvent} {id id' : String}

theorem eventID_of_get (h : tl.getStreamEv id = some e) : e.eventID = id := by
  simpa using find?_some h

theorem get_set {new : ClientEvent} (hnew : ∀ e, tl.getStreamEv id = some e → new.eventID = id)
    (id' : String) : (tl.setStreamEv id new).getStreamEv id' =
      if id' = id then (tl.getStreamEv id).map fun _ => new else tl.getStreamEv id' := by
  induction tl with
  | nil => simp [setStreamEv, getStreamEv]
  | cons x tl ih =>
    simp only [getStreamEv, setStreamEv, find?_cons] at hnew ih ⊢
    by_cases hx : x.eventID = id
    · have hid := hnew x (by simp [hx])
      by_cases h : id = id' <;> simp [hx, hid, h, eq_comm]
    · simp only [hx, if_false, find?_cons, decide_false] at hnew ⊢
      rw [ih hnew]
      by_cases h : id' = id
      · simp [h, hx]
      · simp [h]

theorem get_of_set (new : ClientEvent) (hnew : ∀ e, tl.getStreamEv id = some e → new.eventID = id) :
    (∀ id', id' ≠ id → (tl.setStreamEv id new).getStreamEv id' = tl.getStreamEv id') ∧
      ∀ e, (tl.setStreamEv id new).getStreamEv id = some e → e = new := by
  refine ⟨fun id' hne => by rw [get_set hnew, if_neg hne], fun e he => ?_⟩
  rw [get_set hnew, if_pos rfl] at he
  obtain ⟨-, -, rfl⟩ := map_eq_some_iff.mp he
  rfl

theorem get_of_get_addEv (h : (tl.addEv ev).getStreamEv id = some e) (hne : ev.eventID ≠ id) :
    tl.getStreamEv id = some e := by
  have h' := IsPrefix.find?_eq_some (List.take_prefix _ _) h
  simpa [getStreamEv, hne] using h'

theorem eq_of_get_addEv (h : (tl.addEv ev).getStreamEv ev.eventID = some e) : e = ev := by
  have h' := IsPrefix.find?_eq_some (List.take_prefix _ _) h
  simpa using h'.symm

theorem get_updateEvent_of_ne {f : Unsigned → Option (Option Unsigned)}
    (h : tl.updateEvent id f = some tl') (hne : id' ≠ id) :
    tl'.getStreamEv id' = tl.getStreamEv id' := by
  unfold updateEvent at h
  split at h
  · cases h
    rfl
  · rename_i originEv horigin
    split at h
    · cases h
      rfl
    · split at h
      · exact (nomatch h)
      · cases h
        rfl
      · cases h
        rw [get_set, if_neg hne]
        have hid := eventID_of_get horigin
        exact fun _ _ => hid

theorem updateEvent_eq_some {f : Unsigned → Option (Option Unsigned)} {P Q : Unsigned → Prop}
    (hf : ∀ u, P u → ∃ u', f u = some (some u') ∧ Q u')
    (hP : ∀ e, tl.getStreamEv id = some e → ∃ u, e.getUnsigned = some u ∧ P u) :
    ∃ tl', tl.updateEvent id f = some tl' ∧
      ∀ e, tl'.getStreamEv id = some e → ∃ u, e.getUnsigned = some u ∧ Q u := by
  cases hget : tl.getStreamEv id with
  | none =>
    refine ⟨tl, by rw [updateEvent, hget], fun e he => ?_⟩
    rw [hget] at he
    exact (nomatch he)
  | some originEv =>
    obtain ⟨u, hu, hPu⟩ := hP originEv hget
    obtain ⟨u', hu', hQ⟩ := hf u hPu
    refine ⟨tl.setStreamEv id { originEv with unsigned := some u'.json }, ?_, fun e he => ?_⟩
    · rw [updateEvent, hget]
      simp only [hu, hu']
    · have hid := eventID_of_get hget
      rw [(get_of_set { originEv with unsigned := some u'.json } fun _ _ => hid).2 e he]
      exact ⟨u', decode_json u', hQ⟩

end TimeLine

/-! ## Reactions that are not redacted -/

def reaction? (ev : ClientEvent) : Option ReactionContent := (relatesTo ev).map reactionContent

/-- The annotations of the target and their keys, without those that are redacted; the newest first.
-/
def live (target : String) : List ClientEvent → List (String × String)
  | [] => []
  | ev :: evs =>
    if ev.type = "m.reaction" then
      match reaction? ev with
      | some r =>
        if r.eventID = target ∧ r.relType = "m.annotation" then
          (ev.eventID, r.key) :: live target evs
        else live target evs
      | none => live target evs
    else if ev.type = "m.room.redaction" then (live target evs).filter fun p => p.1 ≠ ev.redacts
    else live target evs

theorem live_sublist (target : String) (evs : List ClientEvent) :
    ((live target evs).map Prod.fst).Sublist (evs.map ClientEvent.eventID) := by
  induction evs with
  | nil => exact List.Sublist.slnil
  | cons ev evs ih =>
    rw [live]
    split_ifs
    · split
      · split_ifs
        · exact ih.cons_cons _
        · exact ih.cons _
      · exact ih.cons _
    · exact ((filter_sublist.map Prod.fst).trans ih).cons _
    · exact ih.cons _

def number (l : List (String × String)) (key : String) : Nat := (l.map Prod.snd).count key

theorem number_cons (id key : String) (l : List (String × String)) :
    number ((id, key) :: l) = update (number l) key (number l key + 1) := by
  funext k
  by_cases hk : k = key
  · subst hk
    simp [number]
  · simp [number, update_of_ne hk, Ne.symm hk]

theorem lookup_cons_eq (p : String × String) (l : List (String × String)) (id : String) :
    (p :: l).lookup id = if id = p.1 then some p.2 else l.lookup id := by
  rw [lookup_cons]
  by_cases h : id = p.1
  · simp [h]
  · have hb : (id == p.1) = false := beq_eq_false_iff_ne.mpr h
    simp [h, hb]

theorem filter_of_lookup_none {l : List (String × String)} {id : String}
    (h : l.lookup id = none) : (l.filter fun p => p.1 ≠ id) = l := by
  rw [lookup_eq_none_iff] at h
  refine filter_eq_self.mpr fun p hp => ?_
  simpa using Ne.symm (by simpa using h p hp)

theorem number_filter {l : List (String × String)} (hl : (l.map Prod.fst).Nodup) {id key : String}
    (h : l.lookup id = some key) :
    0 < number l key ∧
      number (l.filter fun p => p.1 ≠ id) = update (number l) key (number l key - 1) := by
  induction l with
  | nil => exact (nomatch h)
  | cons p l ih =>
    obtain ⟨id', key'⟩ := p
    obtain ⟨hp, hl⟩ := nodup_cons.mp hl
    by_cases hid : id = id'
    · subst hid
      have hkey : key' = key := by simpa using h
      subst hkey
      have hnone : l.lookup id = none := lookup_eq_none_iff.mpr fun q hq => by
        have hne : id ≠ q.1 := fun e => hp (mem_map.mpr ⟨q, hq, e.symm⟩)
        simpa using hne
      refine ⟨by simp [number], ?_⟩
      rw [filter_cons_of_neg (by simp), filter_of_lookup_none hnone, number_cons]
      simp
    · have h' : l.lookup id = some key := by simpa [lookup_cons_eq, hid] using h
      obtain ⟨hpos, hf⟩ := ih hl h'
      rw [filter_cons_of_pos (by simpa using Ne.symm hid), number_cons, number_cons, hf]
      by_cases hk : key' = key
      · subst hk
        have hs : number l key' - 1 + 1 = number l key' + 1 - 1 := by omega
        simp [hs]
      · refine ⟨by rwa [update_of_ne (Ne.symm hk)], ?_⟩
        rw [update_of_ne hk, update_of_ne (Ne.symm hk), update_comm hk]

theorem lookup_filter (l : List (String × String)) (id id' : String) :
    (l.filter fun p => p.1 ≠ id).lookup id' = if id' = id then none else l.lookup id' := by
  induction l with
  | nil => simp
  | cons p l ih =>
    by_cases hp : p.1 = id
    · rw [filter_cons_of_neg (by simpa using hp), ih, lookup_cons_eq, hp]
      split_ifs <;> rfl
    · rw [filter_cons_of_pos (by simpa using hp), lookup_cons_eq, lookup_cons_eq, ih]
      by_cases hid : id' = id
      · simp [hid, Ne.symm hp]
      · simp [hid]

/-! ## Runs -/

structure Room where
  tl : TimeLine
  done : List ClientEvent

structure Arrival where
  ev : ClientEvent
  txnID : String
  reads : Reads

section run

variable (target : String) (s : Room)

def Fresh (ev : ClientEvent) : Prop :=
  ev.eventID ≠ target ∧ s.tl.getStreamEv ev.eventID = none ∧ ∀ d ∈ s.done, d.eventID ≠ ev.eventID

instance (s : Room) (ev : ClientEvent) : Decidable (Fresh target s ev) :=
  inferInstanceAs (Decidable (_ ∧ _ ∧ _))

/-- A reaction to the target, the redaction of a reaction, an update of the target. -/
def Concerns (ev : ClientEvent) : Prop :=
  (ev.type = "m.reaction" ∧ (reaction? ev).map ReactionContent.eventID = some target) ∨
    (ev.type = "m.room.redaction" ∧
      ∃ d ∈ s.done, d.type = "m.reaction" ∧ d.eventID = ev.redacts) ∨
    (ev.type = "m.room.update" ∧ ev.redacts = target)

instance (s : Room) (ev : ClientEvent) : Decidable (Concerns target s ev) :=
  inferInstanceAs (Decidable (_ ∨ _ ∨ _))

def step (a : Arrival) : Option Room :=
  if Fresh target s a.ev ∧ Concerns target s a.ev then
    some ⟨onNewRoomEvent a.reads s.tl a.ev a.txnID, a.ev :: s.done⟩
  else none

def standing (l : List (String × String)) (id : String) : Option ReactionContent :=
  (l.lookup id).map fun key => ⟨target, key, "m.annotation"⟩

/-- Reactions are annotations; one that has left the timeline is read from the database as its
redactions left it; the target is updated only while it has no reactions. -/
def Clean (a : Arrival) : Prop :=
  (a.ev.type = "m.reaction" →
      (reaction? a.ev).map ReactionContent.relType = some "m.annotation") ∧
    (a.ev.type = "m.room.redaction" → s.tl.getStreamEv a.ev.redacts = none →
      (a.reads.db a.ev.redacts).map parseRelatesContent =
        some (some (standing target (live target s.done) a.ev.redacts))) ∧
    (a.ev.type = "m.room.update" → live target s.done = [])

instance (s : Room) (a : Arrival) : Decidable (Clean target s a) :=
  inferInstanceAs (Decidable (_ ∧ _ ∧ _))

def Start (tl : TimeLine) : Prop :=
  target ≠ "" ∧ ∃ ev, tl.getStreamEv target = some ev ∧
    ∃ u, ev.getUnsigned = some u ∧ u.annotations = []

/-- The entries of a cached target are those of the reactions that are not redacted: each key has
one, its count is their number, and none counts nothing. -/
def CountsExact : Prop :=
  ∀ ev, s.tl.getStreamEv target = some ev → ∃ u, ev.getUnsigned = some u ∧
    (∀ a ∈ u.annotations, ∃ b : Annotation, a = some b ∧ 0 < b.count ∧
      b.count = number (live target s.done) b.key) ∧
    (∀ key, 0 < number (live target s.done) key → ∃ b, some b ∈ u.annotations ∧ b.key = key) ∧
    (u.annotations.filterMap fun a => a.map Annotation.key).Nodup

structure Kept : Prop where
  tallies : ∀ e, s.tl.getStreamEv target = some e →
    ∃ u, e.getUnsigned = some u ∧ u.Tallies (number (live target s.done))
  /-- a cached reaction stands as its redactions left it -/
  stands : ∀ d ∈ s.done, d.type = "m.reaction" → ∀ e, s.tl.getStreamEv d.eventID = some e →
    parseRelatesContent e = some (standing target (live target s.done) d.eventID)
  ids : (target :: s.done.map ClientEvent.eventID).Nodup

end run

section steps

variable {target : String} {s t : Room} {a : Arrival}

variable {ev d : ClientEvent} {r : ReactionContent} {evs : List ClientEvent}

theorem Kept.countsExact (h : Kept target s) : CountsExact target s := by
  intro ev hev
  obtain ⟨u, hu, l, hl, ht⟩ := h.tallies ev hev
  refine ⟨u, hu, ?_, ?_, ?_⟩
  · intro a ha
    rw [hl] at ha
    obtain ⟨b, hb, rfl⟩ := mem_map.mp ha
    have hpos := (ht.listed b.key).mp (mem_map_of_mem hb)
    have hc := ht.count b hb
    exact ⟨b, rfl, by omega, hc⟩
  · intro key hkey
    obtain ⟨b, hb, hbk⟩ := mem_map.mp ((ht.listed key).mpr hkey)
    exact ⟨b, hl ▸ mem_map_of_mem hb, hbk⟩
  · have hmap : (u.annotations.filterMap fun a => a.map Annotation.key) = l.map Annotation.key := by
      rw [hl, filterMap_map, ← filterMap_eq_map]
      rfl
    rw [hmap]
    exact ht.nodup

theorem Start.kept {tl : TimeLine} (h : Start target tl) : Kept target ⟨tl, []⟩ := by
  obtain ⟨-, ev, hev, u, hu, ha⟩ := h
  refine ⟨fun e he => ?_, fun d hd => (nomatch hd), nodup_singleton target⟩
  cases hev.symm.trans he
  exact ⟨u, hu, [], ha, tally_nil.mpr fun k => rfl⟩

theorem parse_annotation (hr : reaction? ev = some r)
    (hid : r.eventID ≠ "") (hrel : r.relType = "m.annotation") :
    parseRelatesContent ev = some (some r) := by
  obtain ⟨v, hv, rfl⟩ := map_eq_some_iff.mp hr
  rw [parseRelatesContent, hv]
  cases v with
  | null => exact (nomatch hrel)
  | bool b | num z f | string x | arr elems | obj fields => exact if_pos ⟨hid, hrel⟩

theorem withUnsigned_eventID (rd : Reads) (ev : ClientEvent) (txnID : String) :
    (withUnsigned rd ev txnID).eventID = ev.eventID := by
  unfold withUnsigned
  split_ifs <;> rfl

theorem withUnsigned_reaction (rd : Reads) (txnID : String)
    (h : ev.type = "m.reaction") : withUnsigned rd ev txnID = ev := by
  simp [withUnsigned, isStateClientEv, stateTypes, isMessage, h]

theorem get_of_get_added {tl : TimeLine} {rd : Reads} {e : ClientEvent} {txnID id : String}
    (h : (tl.addEv (withUnsigned rd ev txnID)).getStreamEv id = some e) (hne : ev.eventID ≠ id) :
    tl.getStreamEv id = some e :=
  TimeLine.get_of_get_addEv h (by rwa [withUnsigned_eventID])

theorem live_reaction
    (hty : ev.type = "m.reaction") (hr : reaction? ev = some r) (hid : r.eventID = target)
    (hrel : r.relType = "m.annotation") :
    live target (ev :: evs) = (ev.eventID, r.key) :: live target evs := by
  rw [live, if_pos hty, hr]
  exact if_pos ⟨hid, hrel⟩

theorem live_redaction (hty : ev.type = "m.room.redaction") :
    live target (ev :: evs) = (live target evs).filter fun p => p.1 ≠ ev.redacts := by
  rw [live, if_neg (by simp [hty]), if_pos hty]

theorem live_update (hty : ev.type = "m.room.update") :
    live target (ev :: evs) = live target evs := by
  rw [live, if_neg (by simp [hty]), if_neg (by simp [hty])]

section
variable (h : Kept target s)
include h

theorem Kept.ne (hd : d ∈ s.done) : d.eventID ≠ target :=
  fun e => (nodup_cons.mp h.ids).1 (e ▸ mem_map_of_mem hd)

theorem Kept.nodup : ((live target s.done).map Prod.fst).Nodup :=
  (nodup_cons.mp h.ids).2.sublist (live_sublist target s.done)

theorem Kept.ids_cons (hf : Fresh target s a.ev) :
    (target :: (a.ev :: s.done).map ClientEvent.eventID).Nodup := by
  obtain ⟨hne, -, hdone⟩ := hf
  obtain ⟨htarget, hnodup⟩ := nodup_cons.mp h.ids
  have hev : a.ev.eventID ∉ s.done.map ClientEvent.eventID := by
    intro hmem
    obtain ⟨d, hd, he⟩ := mem_map.mp hmem
    exact hdone d hd he
  rw [map_cons]
  refine nodup_cons.mpr ⟨?_, nodup_cons.mpr ⟨hev, hnodup⟩⟩
  rw [mem_cons]
  exact not_or.mpr ⟨Ne.symm hne, htarget⟩

theorem Kept.reaction (htarget : target ≠ "") (hf : Fresh target s a.ev)
    (hty : a.ev.type = "m.reaction") (hr : reaction? a.ev = some r) (hid : r.eventID = target)
    (hrel : r.relType = "m.annotation") :
    Kept target ⟨onNewRoomEvent a.reads s.tl a.ev a.txnID, a.ev :: s.done⟩ := by
  have hlive : live target (a.ev :: s.done) = _ := live_reaction hty hr hid hrel
  have hadd : ∀ u : Unsigned, u.Tallies (number (live target s.done)) →
      ∃ u', (u.addReaction a.ev.type r.key).map some = some (some u') ∧
        u'.Tallies (number (live target (a.ev :: s.done))) := by
    intro u hu
    obtain ⟨u', hu', ht⟩ := hu.addReaction a.ev.type r.key
    rw [hlive, number_cons, hu']
    exact ⟨u', rfl, ht⟩
  obtain ⟨tl', htl', htal⟩ := TimeLine.updateEvent_eq_some hadd h.tallies
  have hrelate : relate a.reads s.tl a.ev = some tl' := by
    obtain ⟨v, hv, rfl⟩ := map_eq_some_iff.mp hr
    rw [relate, if_neg (by simp [hty]), if_neg (by simp [isMessage, hty]), if_pos hty,
      processReactionEv, hv]
    show s.tl.updateEvent (reactionContent v).eventID _ = _
    rw [hid]
    exact htl'
  rw [onNewRoomEvent, hrelate]
  refine ⟨fun e he => htal e (get_of_get_added he hf.1), ?_, h.ids_cons hf⟩
  intro d hd hdty e he
  rw [hlive, standing, lookup_cons_eq]
  rcases mem_cons.mp hd with rfl | hd
  · rw [withUnsigned_reaction _ _ hty] at he
    rw [TimeLine.eq_of_get_addEv he, parse_annotation hr (hid ▸ htarget) hrel, if_pos rfl, ← hid,
      ← hrel]
    rfl
  · have hde := hf.2.2 d hd
    rw [if_neg hde]
    refine h.stands d hd hdty e ?_
    rw [← TimeLine.get_updateEvent_of_ne htl' (h.ne hd)]
    exact get_of_get_added he hde.symm

theorem Kept.uncounted (id : String) :
    ∃ tl', uncount s.tl (standing target (live target s.done) id) = some tl' ∧
      (∀ e, tl'.getStreamEv target = some e → ∃ u, e.getUnsigned = some u ∧
        u.Tallies (number ((live target s.done).filter fun p => p.1 ≠ id))) ∧
      ∀ id', id' ≠ target → tl'.getStreamEv id' = s.tl.getStreamEv id' := by
  cases hl : (live target s.done).lookup id with
  | none =>
    refine ⟨s.tl, by rw [standing, hl]; rfl, ?_, fun _ _ => rfl⟩
    rw [filter_of_lookup_none hl]
    exact h.tallies
  | some key =>
    obtain ⟨hpos, hnum⟩ := number_filter h.nodup hl
    have hrem : ∀ u : Unsigned, u.Tallies (number (live target s.done)) →
        ∃ u', u.removeReaction key = some (some u') ∧
          u'.Tallies (number ((live target s.done).filter fun p => p.1 ≠ id)) := by
      intro u hu
      rw [hnum]
      exact hu.removeReaction hpos
    obtain ⟨tl', htl', htal⟩ := TimeLine.updateEvent_eq_some hrem h.tallies
    refine ⟨tl', by rw [standing, hl]; exact htl', htal, fun id' hid' => ?_⟩
    exact TimeLine.get_updateEvent_of_ne htl' hid'

end

theorem mem_done_of_reaction (hne : ev.type ≠ "m.reaction")
    (hd : d ∈ ev :: s.done) (hdty : d.type = "m.reaction") : d ∈ s.done := by
  rcases mem_cons.mp hd with rfl | hmem
  · exact absurd hdty hne
  · exact hmem

section
variable (h : Kept target s) (hd : d ∈ s.done) (hdty : d.type = "m.reaction")
  (hdid : d.eventID = a.ev.redacts) (hdb : s.tl.getStreamEv a.ev.redacts = none →
    (a.reads.db a.ev.redacts).map parseRelatesContent =
      some (some (standing target (live target s.done) a.ev.redacts)))
include h hd hdty hdid hdb

theorem Kept.redacted_event :
    ∃ e₀, (s.tl.getStreamEv a.ev.redacts <|> a.reads.db a.ev.redacts) = some e₀ ∧
      parseRelatesContent e₀ = some (standing target (live target s.done) a.ev.redacts) ∧
      ∀ e, s.tl.getStreamEv a.ev.redacts = some e → e₀.eventID = a.ev.redacts := by
  cases hget : s.tl.getStreamEv a.ev.redacts with
  | some e₀ =>
    refine ⟨e₀, rfl, ?_, fun _ _ => TimeLine.eventID_of_get hget⟩
    rw [← hdid] at hget ⊢
    exact h.stands d hd hdty e₀ hget
  | none =>
    obtain ⟨e₀, he₀, hp⟩ := map_eq_some_iff.mp (hdb hget)
    exact ⟨e₀, he₀, hp, fun _ hn => (nomatch hn)⟩

theorem Kept.redaction (hf : Fresh target s a.ev) (hty : a.ev.type = "m.room.redaction") :
    Kept target ⟨onNewRoomEvent a.reads s.tl a.ev a.txnID, a.ev :: s.done⟩ := by
  have hlive : live target (a.ev :: s.done) = _ := live_redaction hty
  have hnet : a.ev.redacts ≠ target := hdid ▸ h.ne hd
  obtain ⟨tl', htl', htal, hother⟩ := h.uncounted a.ev.redacts
  obtain ⟨e₀, he₀, hparse, hid⟩ := h.redacted_event hd hdty hdid hdb
  have hrelate : relate a.reads s.tl a.ev = some (tl'.setStreamEv a.ev.redacts
      (redacted a.reads a.ev e₀ (standing target (live target s.done) a.ev.redacts))) := by
    rw [relate, if_pos (Or.inl hty), processRedactEv, he₀]
    show (if _ then _ else _) = _
    rw [if_pos hty, hparse]
    simp only [bind_eq_bind, bind_some, htl']
    rfl
  rw [← hother _ hnet] at hid
  obtain ⟨hset, hself⟩ := TimeLine.get_of_set
    (redacted a.reads a.ev e₀ (standing target (live target s.done) a.ev.redacts)) hid
  rw [onNewRoomEvent, hrelate]
  refine ⟨?_, ?_, h.ids_cons hf⟩
  · intro e he
    rw [hlive]
    refine htal e ?_
    rw [← hset target hnet.symm]
    exact get_of_get_added he hf.1
  · intro d' hd' hdty' e he
    have hd'' : d' ∈ s.done := mem_done_of_reaction (by rw [hty]; decide) hd' hdty'
    have he' := get_of_get_added he (hf.2.2 d' hd'').symm
    rw [hlive, standing, lookup_filter]
    by_cases hid' : d'.eventID = a.ev.redacts
    · rw [hid'] at he'
      rw [hself e he', if_pos hid']
      rfl
    · rw [if_neg hid']
      rw [hset _ hid', hother _ (h.ne hd'')] at he'
      exact h.stands d' hd'' hdty' e he'

end

theorem relate_update (rd : Reads) (tl : TimeLine)
    (hty : ev.type = "m.room.update") (hid : ev.redacts = target) :
    ∃ tl', relate rd tl ev = some tl' ∧
      (∀ id, id ≠ target → tl'.getStreamEv id = tl.getStreamEv id) ∧
      ∀ e, tl'.getStreamEv target = some e → e.getUnsigned = some ⟨"", none⟩ := by
  rw [relate, if_pos (Or.inr hty), processRedactEv, hid]
  have hneg : ¬ ev.type = "m.room.redaction" := by simp [hty]
  cases horigin : (tl.getStreamEv target <|> rd.db target) with
  | none =>
    refine ⟨tl, rfl, fun _ _ => rfl, fun e he => ?_⟩
    rw [he] at horigin
    cases horigin
  | some e₀ =>
    have hnew : ∀ e, tl.getStreamEv target = some e → (updated ev e₀).eventID = target := by
      intro e he
      rw [he] at horigin
      obtain rfl := some.inj horigin
      show e.eventID = target
      exact TimeLine.eventID_of_get he
    obtain ⟨hother, hself⟩ := TimeLine.get_of_set _ hnew
    refine ⟨_, if_neg hneg, hother, fun e he => ?_⟩
    rw [hself e he]
    rfl

theorem Kept.update (h : Kept target s) (hf : Fresh target s a.ev)
    (hty : a.ev.type = "m.room.update") (hid : a.ev.redacts = target)
    (hnil : live target s.done = []) :
    Kept target ⟨onNewRoomEvent a.reads s.tl a.ev a.txnID, a.ev :: s.done⟩ := by
  have hlive : live target (a.ev :: s.done) = _ := live_update hty
  obtain ⟨tl', hrelate, hother, hself⟩ := relate_update a.reads s.tl hty hid
  rw [onNewRoomEvent, hrelate]
  refine ⟨?_, ?_, h.ids_cons hf⟩
  · intro e he
    refine ⟨_, hself e (get_of_get_added he hf.1), [], rfl, ?_⟩
    rw [hlive, hnil]
    exact tally_nil.mpr fun _ => rfl
  · intro d hd hdty e he
    have hd' : d ∈ s.done := mem_done_of_reaction (by rw [hty]; decide) hd hdty
    rw [hlive]
    refine h.stands d hd' hdty e ?_
    rw [← hother _ (h.ne hd')]
    exact get_of_get_added he (hf.2.2 d hd').symm

theorem Kept.step (h : Kept target s) (htarget : target ≠ "") (hc : Clean target s a)
    (ht : step target s a = some t) : Kept target t := by
  rw [Feed.step] at ht
  split_ifs at ht with hadm
  obtain ⟨hf, hcon⟩ := hadm
  cases ht
  rcases hcon with ⟨hty, hr⟩ | ⟨hty, d, hd, hdty, hdid⟩ | ⟨hty, hid⟩
  · obtain ⟨r, hr, hid⟩ := map_eq_some_iff.mp hr
    have hrel := hc.1 hty
    rw [hr] at hrel
    exact h.reaction htarget hf hty hr hid (some.inj hrel)
  · exact h.redaction hd hdty hdid (hc.2.1 hty) hf hty
  · exact h.update hf hty hid (hc.2.2 hty)

end steps

/-- **Counts are exact** in every run whose reactions are annotations and whose updates of the
target find it without reactions. -/
theorem counts_exact {target : String} {tl : TimeLine} {as : List Arrival} {t : Room}
    (hstart : Start target tl) (hm : RunMeets (step target) (Clean target) ⟨tl, []⟩ as)
    (h : run (step target) ⟨tl, []⟩ as = some t) : CountsExact target t := by
  have hk : Kept target t :=
    run_invariant (fun hs hc ht => hs.step hstart.1 hc ht) hstart.kept hm h
  exact hk.countsExact

/-! ### A message with a reaction -/

def message : ClientEvent :=
  ⟨"$m", "@alice:x", "m.room.message", "", .obj [("body", .string "hello")], none, ""⟩

def thumbsUp (relType : String) : ClientEvent :=
  ⟨"$1", "@bob:x", "m.reaction", "", .obj [("m.relates_to", .obj [("event_id", .string "$m"),
    ("key", .string "+1"), ("rel_type", .string relType)])], none, ""⟩

def takenBack : ClientEvent := ⟨"$2", "@bob:x", "m.room.redaction", "$1", .obj [], none, ""⟩

def edit : ClientEvent :=
  ⟨"$3", "@alice:x", "m.room.update", "$m", .obj [("body", .string "hello all")], none, ""⟩

def Arrival.plain (ev : ClientEvent) : Arrival := ⟨ev, "", ⟨fun _ => none, none, "Bob"⟩⟩

theorem start_message : Start "$m" [message] :=
  ⟨by decide, message, rfl, ⟨"", none⟩, rfl, rfl⟩

theorem counts_exact_takenBack :
    ∃ t, run (step "$m") ⟨[message], []⟩ ([thumbsUp "m.annotation", takenBack, edit].map
      Arrival.plain) = some t ∧ CountsExact "$m" t := by
  have hm : RunMeets (step "$m") (Clean "$m") ⟨[message], []⟩
      ([thumbsUp "m.annotation", takenBack, edit].map Arrival.plain) := by decide +kernel
  exact ⟨_, rfl, counts_exact start_message hm rfl⟩

/-- An edit drops the annotations of a reaction that is not redacted. A reaction of another type is
counted, and its redaction does not take it out. -/
theorem counts_inexact :
    Start "$m" [message] ∧
      (∃ t, run (step "$m") ⟨[message], []⟩ ([thumbsUp "m.annotation", edit].map Arrival.plain) =
        some t ∧ ¬ CountsExact "$m" t) ∧
      ∃ t, run (step "$m") ⟨[message], []⟩ ([thumbsUp "m.reference", takenBack].map
        Arrival.plain) = some t ∧ ¬ CountsExact "$m" t := by
  refine ⟨start_message, ⟨_, rfl, fun h => ?_⟩, _, rfl, fun h => ?_⟩
  · obtain ⟨u, hu, -, hlisted, -⟩ := h _ rfl
    cases hu
    obtain ⟨b, hb, -⟩ := hlisted "+1" (by decide +kernel)
    exact (nomatch hb)
  · obtain ⟨u, hu, hcount, -⟩ := h _ rfl
    cases hu
    obtain ⟨b, hb, hpos, hn⟩ := hcount _ mem_cons_self
    cases hb
    exact absurd hn (by decide +kernel)

end Ligase.Feed
