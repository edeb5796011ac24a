import Ligase.Feed.Reactions

/-!
# Nil pointers in the feed

Events come to the feed server as new ones or as backfilled ones, and both paths follow their
relations to other events, in memory or in the database. What they find there has been made from the
contents of earlier events: a relation may be `null`, and so may an annotation. A panic ends the
server: the new-event path recovers from it only to panic again, and the other one does not recover.

* **`feed_survives`**: runs that are processed to their end.
-/

namespace Ligase.Feed.Paths

open Lib List Option

/-! ## The handlers -/

section
variable (rd : Reads) (tl : TimeLine)

def origin (id : String) : Option ClientEvent := tl.getStreamEv id <|> rd.db id

/-- Change the unsigned data of an event; that of an event of the database is not stored. -/
def updateOrigin (id : String) (f : Unsigned → Option (Option Unsigned)) : Option TimeLine :=
  match tl.getStreamEv id with
  | some _ => tl.updateEvent id f
  | none =>
    match (rd.db id).bind ClientEvent.getUnsigned with
    | some unsigned => (f unsigned).map fun _ => tl
    | none => some tl

def uncountOrigin : Option ReactionContent → Option TimeLine
  | some reaction => updateOrigin rd tl reaction.eventID (Unsigned.removeReaction reaction.key)
  | none => some tl

def handleRedact (ev : ClientEvent) : Option TimeLine :=
  match origin rd tl ev.redacts with
  | none => some tl
  | some redactEv =>
    if ev.type = "m.room.redaction" then do
      let reaction ← parseRelatesContent redactEv
      let tl' ← uncountOrigin rd tl reaction
      return tl'.setStreamEv ev.redacts (redacted rd ev redactEv reaction)
    else some (tl.setStreamEv ev.redacts (updated ev redactEv))

def handleReaction (ev : ClientEvent) : Option TimeLine :=
  match relatesTo ev with
  | none => some tl
  | some v =>
    let reaction := reactionContent v
    updateOrigin rd tl reaction.eventID fun u => (u.addReaction ev.type reaction.key).map some

def handle (ev : ClientEvent) : Option TimeLine :=
  if ev.type = "m.room.redaction" ∨ ev.type = "m.room.update" then handleRedact rd tl ev
  else if isMessage ev then processMessageEv tl ev
  else if ev.type = "m.reaction" then handleReaction rd tl ev
  else some tl

end

/-! ## Runs -/

inductive Path where
  | new (txnID : String)
  | backfill

structure Arrival where
  ev : ClientEvent
  path : Path
  reads : Reads

def step (tl : TimeLine) (a : Arrival) : Option TimeLine :=
  (handle a.reads tl a.ev).map fun tl' =>
    match a.path with
    | .new txnID => tl'.addEv (withUnsigned a.reads a.ev txnID)
    | .backfill => tl'

/-! ## Annotations -/

section
variable {rd : Reads} {tl : TimeLine} {ev : ClientEvent} {key id : String}
variable {chunk : List (Option Annotation)} {f : Unsigned → Option (Option Unsigned)}

theorem increment_keeps (type key : String) (h : none ∉ chunk) :
    ∃ chunk' ∈ increment type key chunk, none ∉ chunk' := by
  induction chunk with
  | nil => exact ⟨_, rfl, by simp⟩
  | cons a chunk ih =>
    obtain ⟨ha, hrest⟩ := ne_and_not_mem_of_not_mem_cons h
    obtain ⟨item, rfl⟩ := ne_none_iff_exists'.mp (Ne.symm ha)
    obtain ⟨chunk', hchunk, hnone⟩ := ih hrest
    unfold increment
    split_ifs
    · exact ⟨_, rfl, by simpa using hrest⟩
    · exact ⟨_, mem_map_of_mem _ hchunk, by simpa using hnone⟩

theorem decrement_keeps (key : String) (h : none ∉ chunk) :
    ∃ chunk' ∈ decrement key chunk, none ∉ chunk' := by
  induction chunk with
  | nil => exact ⟨_, rfl, by simp⟩
  | cons a chunk ih =>
    obtain ⟨ha, hrest⟩ := ne_and_not_mem_of_not_mem_cons h
    obtain ⟨item, rfl⟩ := ne_none_iff_exists'.mp (Ne.symm ha)
    obtain ⟨chunk', hchunk, hnone⟩ := ih hrest
    unfold decrement
    split_ifs
    · exact ⟨_, rfl, hrest⟩
    · exact ⟨_, rfl, by simpa using hrest⟩
    · exact ⟨_, mem_map_of_mem _ hchunk, by simpa using hnone⟩

/-- A change of unsigned data that does not panic without a nil annotation, and makes none. -/
def Keeps (f : Unsigned → Option (Option Unsigned)) : Prop :=
  ∀ u : Unsigned, none ∉ u.annotations → ∃ o ∈ f u, ∀ u' ∈ o, none ∉ u'.annotations

theorem keeps_addReply (eventID : String) : Keeps fun u => some (some (u.addReply eventID)) := by
  intro u hu
  refine ⟨_, rfl, fun u' hu' => ?_⟩
  obtain rfl := some.inj hu'
  obtain ⟨txnID, _ | ⟨_ | _ | replies, anno⟩⟩ := u
  · exact not_mem_nil
  all_goals exact hu

theorem keeps_addReaction (type : String) :
    Keeps fun u => (u.addReaction type key).map some := by
  intro u hu
  obtain ⟨txnID, _ | ⟨relayTo, _ | _ | chunk⟩⟩ := u
  pick_goal 4
  · obtain ⟨chunk', hchunk, hnone⟩ := increment_keeps type key hu
    refine ⟨_, mem_map_of_mem _ (mem_map_of_mem _ hchunk), fun u' hu' => ?_⟩
    obtain rfl := some.inj hu'
    exact hnone
  all_goals
    refine ⟨_, rfl, fun u' hu' => ?_⟩
    obtain rfl := some.inj hu'
    simp [Unsigned.annotations]

theorem keeps_removeReaction : Keeps (Unsigned.removeReaction key) := by
  intro u hu
  obtain ⟨txnID, _ | ⟨relayTo, _ | _ | chunk⟩⟩ := u
  pick_goal 4
  · obtain ⟨chunk', hchunk, hnone⟩ := decrement_keeps key hu
    refine ⟨_, mem_map_of_mem _ hchunk, fun u' hu' => ?_⟩
    split_ifs at hu'
    all_goals obtain rfl := some.inj hu'
    · exact not_mem_nil
    · exact not_mem_nil
    · exact hnone
  all_goals exact ⟨_, rfl, by simp⟩

/-! ## Clean events -/

/-- Where `named` holds of the event's id its relation is not `null`; no annotation is nil. -/
structure Clean (named : String → Prop) (id : String) (ev : ClientEvent) : Prop where
  relation : named id → relatesTo ev ≠ some .null
  annotations : ∀ u, ev.getUnsigned = some u → none ∉ u.annotations

/-- The events in memory are clean. -/
def AllClean (named : String → Prop) (tl : TimeLine) : Prop :=
  ∀ e ∈ tl, Clean named e.eventID e

variable {named : String → Prop}

section
variable (h : AllClean named tl)
include h

theorem AllClean.get {e : ClientEvent} (hget : tl.getStreamEv id = some e) :
    e.eventID = id ∧ Clean named id e := by
  have hid : e.eventID = id := by simpa using find?_some hget
  exact ⟨hid, hid ▸ h e (mem_of_find?_eq_some hget)⟩

theorem AllClean.set {new : ClientEvent}
    (hnew : ∀ e, tl.getStreamEv id = some e → Clean named new.eventID new) :
    AllClean named (tl.setStreamEv id new) := by
  induction tl with
  | nil => exact h
  | cons e tl ih =>
    obtain ⟨he, htl⟩ := forall_mem_cons.mp h
    unfold TimeLine.setStreamEv
    split_ifs with hid
    · exact forall_mem_cons.mpr ⟨hnew e (by simp [TimeLine.getStreamEv, hid]), htl⟩
    · refine forall_mem_cons.mpr ⟨he, ih htl fun e' he' => hnew e' ?_⟩
      simpa [TimeLine.getStreamEv, hid] using he'

theorem AllClean.updateEvent (hf : Keeps f) :
    ∃ tl' ∈ tl.updateEvent id f, AllClean named tl' := by
  unfold TimeLine.updateEvent
  cases hget : tl.getStreamEv id with
  | none => exact ⟨tl, rfl, h⟩
  | some originEv =>
    obtain ⟨hid, hclean⟩ := h.get hget
    cases hu : originEv.getUnsigned with
    | none => exact ⟨tl, by simp [hu], h⟩
    | some u =>
      obtain ⟨o, ho, hkeeps⟩ := hf u (hclean.annotations u hu)
      cases o with
      | none => exact ⟨tl, by simp [hu, mem_def.mp ho], h⟩
      | some u' =>
        refine ⟨_, by simp only [hu, mem_def.mp ho]; rfl, h.set fun _ _ => ⟨?_, ?_⟩⟩
        · exact hid ▸ hclean.relation
        · intro w hw
          obtain rfl := some.inj ((decode_json u').symm.trans hw)
          exact hkeeps _ rfl

/-! ## The handlers keep the events clean -/

/-- What is read from the database is clean. -/
def CleanReads (named : String → Prop) (rd : Reads) : Prop :=
  ∀ id e, rd.db id = some e → Clean named id e

variable (hrd : CleanReads named rd)
include hrd

theorem clean_origin {e : ClientEvent} (he : origin rd tl id = some e) : Clean named id e := by
  unfold origin at he
  cases hget : tl.getStreamEv id with
  | some e' =>
    rw [hget] at he
    obtain rfl := some.inj he
    exact (h.get hget).2
  | none =>
    rw [hget] at he
    exact hrd id e he

theorem updateOrigin_clean (hf : Keeps f) :
    ∃ tl' ∈ updateOrigin rd tl id f, AllClean named tl' := by
  unfold updateOrigin
  cases tl.getStreamEv id with
  | some e => exact h.updateEvent hf
  | none =>
    dsimp only
    cases hu : (rd.db id).bind ClientEvent.getUnsigned with
    | none => exact ⟨tl, rfl, h⟩
    | some u =>
      obtain ⟨e, he, heu⟩ := bind_eq_some_iff.mp hu
      obtain ⟨o, ho, -⟩ := hf u ((hrd id e he).annotations u heu)
      exact ⟨tl, mem_map_of_mem _ ho, h⟩

theorem handleReaction_clean : ∃ tl' ∈ handleReaction rd tl ev, AllClean named tl' := by
  unfold handleReaction
  cases relatesTo ev with
  | none => exact ⟨tl, rfl, h⟩
  | some v => exact updateOrigin_clean h hrd (keeps_addReaction ev.type)

theorem uncountOrigin_clean (reaction : Option ReactionContent) :
    ∃ tl' ∈ uncountOrigin rd tl reaction, AllClean named tl' := by
  cases reaction with
  | none => exact ⟨tl, rfl, h⟩
  | some r => exact updateOrigin_clean h hrd keeps_removeReaction

omit hrd in
theorem processMessageEv_clean : ∃ tl' ∈ processMessageEv tl ev, AllClean named tl' := by
  unfold processMessageEv
  cases relatesTo ev with
  | none => exact ⟨tl, rfl, h⟩
  | some v => exact h.updateEvent (keeps_addReply ev.eventID)

end

theorem exists_parseRelatesContent {target : ClientEvent} (h : relatesTo target ≠ some .null) :
    ∃ reaction, parseRelatesContent target = some reaction := by
  unfold parseRelatesContent
  split
  · exact ⟨none, rfl⟩
  · rename_i hnull
    exact absurd hnull h
  · dsimp only
    split_ifs
    · exact ⟨_, rfl⟩
    · exact ⟨_, rfl⟩

theorem readUnsigned_redact (u : RedactUnsigned) : readUnsigned u.json = some ⟨"", none⟩ := by
  obtain ⟨_ | e, _ | e', _ | b⟩ := u <;> rfl

theorem not_mem_annotations_redact {u : RedactUnsigned} {w : Unsigned}
    (hw : readUnsigned u.json = some w) : none ∉ w.annotations := by
  obtain rfl := some.inj ((readUnsigned_redact u).symm.trans hw)
  exact not_mem_nil

theorem clean_redacted (ev target : ClientEvent) (reaction : Option ReactionContent) :
    Clean named id (redacted rd ev target reaction) :=
  ⟨fun _ => by simp [relatesTo, redacted, Json.asMap], fun _ => not_mem_annotations_redact⟩

theorem handleRedact_clean (h : AllClean named tl) (hrd : CleanReads named rd)
    (hnamed : ev.type = "m.room.redaction" → named ev.redacts)
    (hupdate : ev.type ≠ "m.room.redaction" → named ev.redacts → relatesTo ev ≠ some .null) :
    ∃ tl' ∈ handleRedact rd tl ev, AllClean named tl' := by
  unfold handleRedact
  cases horigin : origin rd tl ev.redacts with
  | none => exact ⟨tl, rfl, h⟩
  | some target =>
    dsimp only
    by_cases hty : ev.type = "m.room.redaction"
    · have hclean := clean_origin h hrd horigin
      obtain ⟨reaction, hparse⟩ := exists_parseRelatesContent (hclean.relation (hnamed hty))
      obtain ⟨tl', htl', h'⟩ := uncountOrigin_clean h hrd reaction
      rw [if_pos hty]
      refine ⟨tl'.setStreamEv ev.redacts (redacted rd ev target reaction), ?_,
        h'.set fun _ _ => clean_redacted ev target reaction⟩
      simp [hparse, mem_def.mp htl']
    · rw [if_neg hty]
      refine ⟨_, rfl, h.set fun e hget => ⟨?_, fun _ => not_mem_annotations_redact⟩⟩
      -- what is stored is the event of the timeline with the id
      have htarget : target.eventID = ev.redacts := by
        rw [origin, hget] at horigin
        exact some.inj horigin ▸ (h.get hget).1
      exact fun hn => hupdate hty (htarget ▸ hn)

/-! ## The feed -/

/-- The ids of the events that are redacted in a run. -/
def Redacted (as : List Arrival) (id : String) : Prop :=
  ∃ a ∈ as, a.ev.type = "m.room.redaction" ∧ a.ev.redacts = id

/-- An arrival that brings in nothing to panic on: the event as it is stored, the content of an
update, and what is read from the database. -/
structure Arrival.Clean (named : String → Prop) (a : Arrival) : Prop where
  stored : ∀ txnID, a.path = .new txnID →
    Paths.Clean named a.ev.eventID (withUnsigned a.reads a.ev txnID)
  update : a.ev.type = "m.room.update" → named a.ev.redacts → relatesTo a.ev ≠ some .null
  reads : CleanReads named a.reads

section
variable (h : AllClean named tl) {a : Arrival} (ha : a.Clean named)
  (hnamed : a.ev.type = "m.room.redaction" → named a.ev.redacts)
include h ha hnamed

theorem handle_clean : ∃ tl' ∈ handle a.reads tl a.ev, AllClean named tl' := by
  unfold handle
  split_ifs with hredact
  · refine handleRedact_clean h ha.reads hnamed fun hne => ha.update ?_
    exact hredact.resolve_left hne
  · exact processMessageEv_clean h
  · exact handleReaction_clean h ha.reads
  · exact ⟨tl, rfl, h⟩

theorem step_clean : ∃ tl' ∈ step tl a, AllClean named tl' := by
  obtain ⟨tl', htl', h'⟩ := handle_clean h ha hnamed
  refine ⟨_, mem_map_of_mem _ htl', ?_⟩
  cases hpath : a.path with
  | backfill => exact h'
  | new txnID =>
    intro e he
    rcases mem_cons.mp (mem_of_mem_take he) with rfl | he
    · rw [withUnsigned_eventID]
      exact ha.stored txnID hpath
    · exact h' e he

end

/-- **The feed survives a run** if nothing that it redacts has a `null` relation and no nil
annotation comes in. -/
theorem feed_survives (tl : TimeLine) (as : List Arrival) (h : AllClean (Redacted as) tl)
    (has : ∀ a ∈ as, a.Clean (Redacted as)) : (run step tl as).isSome := by
  refine run_isSome (D := fun a => a ∈ as ∧ a.Clean (Redacted as)) (fun h ha => ?_) h
    fun a ha => ⟨ha, has a ha⟩
  exact step_clean h ha.2 fun hty => ⟨_, ha.1, hty, rfl⟩

end

/-! ## A message with a null relation -/

def nullRelation : ClientEvent :=
  ⟨"$1", "@a:x", "m.room.message", "", .obj [("m.relates_to", .null)], none, ""⟩

def takesBack (id : String) : ClientEvent :=
  ⟨"$9", "@a:x", "m.room.redaction", id, .obj [], none, ""⟩

def likes : ClientEvent :=
  ⟨"$2", "@a:x", "m.reaction", "", .obj [("m.relates_to", .obj [("event_id", .string "$1"),
    ("key", .string "+"), ("rel_type", .string "m.annotation")])], none, ""⟩

def arrives (ev : ClientEvent) (path : Path) : Arrival := ⟨ev, path, ⟨fun _ => none, none, "Alice"⟩⟩

theorem feed_survives_reaction :
    (run step [] [arrives nullRelation (.new ""), arrives likes (.new ""),
      arrives (takesBack "$2") .backfill]).isSome := by
  refine feed_survives _ _ (forall_mem_nil _) fun a ha => ?_
  have hnamed : ∀ id, Redacted [arrives nullRelation (.new ""), arrives likes (.new ""),
      arrives (takesBack "$2") .backfill] id → id = "$2" := by
    rintro id ⟨b, hb, hty, rfl⟩
    simp only [mem_cons, not_mem_nil, or_false] at hb
    rcases hb with rfl | rfl | rfl
    · exact absurd hty (by decide)
    · exact absurd hty (by decide)
    · rfl
  simp only [mem_cons, not_mem_nil, or_false] at ha
  rcases ha with rfl | rfl | rfl
  · refine ⟨fun txnID htxn => ?_, fun hty => absurd hty (by decide), fun _ _ => by simp [arrives]⟩
    cases htxn
    refine ⟨fun hn => absurd (hnamed _ hn) (by decide), fun u hu => ?_⟩
    obtain rfl := some.inj hu
    exact not_mem_nil
  · refine ⟨fun txnID htxn => ?_, fun hty => absurd hty (by decide), fun _ _ => by simp [arrives]⟩
    cases htxn
    refine ⟨fun _ => by rintro ⟨⟩, fun u hu => ?_⟩
    obtain rfl := some.inj hu
    exact not_mem_nil
  · exact ⟨by rintro _ ⟨⟩, fun hty => absurd hty (by decide),
      fun _ _ => by simp [arrives]⟩

/-- The redaction of the message ends the server on both paths. -/
theorem feed_panics :
    (run step [] [arrives nullRelation (.new "")]).isSome ∧
      run step [] [arrives nullRelation (.new ""), arrives (takesBack "$1") (.new "")] = none ∧
      run step [] [arrives nullRelation (.new ""), arrives (takesBack "$1") .backfill] = none :=
  ⟨rfl, rfl, rfl⟩

end Ligase.Feed.Paths
