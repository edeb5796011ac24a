import Ligase.Crypto.OneTimeKeys

/-!
# The algorithm of a claimed key

A claim asks for a key of a device and an algorithm. `pickOne` goes through the list of the device
and takes the first key it can read; the algorithm asked for is not looked at and only names the key
in the reply.

* **`claimed_right_iff`**: when the keys of a call are of the algorithms asked for.
-/

namespace Ligase.Crypto

open Lib List

/-! ## A call by itself -/

structure NameOrder where
  names : Item → List String → List String
  perm : ∀ item l, (names item l).Perm l

def firstKey (cache : Cache) : List String → Option KeyHolder
  | [] => none
  | keyID :: keyIDs =>
    match cache.keys keyID with
    | some key => if key.UserID ≠ "" then some key else firstKey cache keyIDs
    | none => firstKey cache keyIDs

def pickOne (o : NameOrder) (cache : Cache) (item : Item) : Option KeyHolder × Cache :=
  match firstKey cache (o.names item (cache.lists (listKey item.uid item.deviceID))) with
  | some key => (some key, (cache.del key).hdel key)
  | none => (none, cache)

/-- The keys that are returned, each with the part of the request it is returned for. -/
def claimOneTimeKeys (o : NameOrder) : Cache → List Item → List (Item × KeyHolder) × Cache
  | cache, [] => ([], cache)
  | cache, item :: items =>
    match pickOne o cache item with
    | (some key, cache') =>
      let (returned, cache'') := claimOneTimeKeys o cache' items
      ((item, key) :: returned, cache'')
    | (none, cache') => claimOneTimeKeys o cache' items

def soloStep (s : Cache × Claim) (cmd : Cmd) : Option (Cache × Claim) := claimStep s.1 s.2 cmd

variable {content : Content} {req : ClaimRequest} {item : Item} {cache : Cache} {key : KeyHolder}
  {keyID : String} {items : List Item}

theorem run_scan (cache : Cache) (item : Item) (todo : List Item)
    (returned : List (Item × KeyHolder)) (keyIDs : List String) :
    ∃ cmds, run soloStep (cache, Claim.resume ⟨item :: todo, .next, returned⟩ keyIDs) cmds =
      some (match firstKey cache keyIDs with
        | some key => (cache, ⟨item :: todo, .picked key, returned⟩)
        | none => (cache, ⟨todo, .next, returned⟩)) := by
  induction keyIDs with
  | nil => exact ⟨[], rfl⟩
  | cons keyID keyIDs ih =>
    obtain ⟨cmds, hcmds⟩ := ih
    have hresume : Claim.resume ⟨item :: todo, .scan (keyID :: keyIDs), returned⟩ keyIDs =
        Claim.resume ⟨item :: todo, .next, returned⟩ keyIDs := by
      cases keyIDs <;> rfl
    cases hkey : cache.keys keyID with
    | none =>
      refine ⟨.hmget :: cmds, ?_⟩
      simpa [run, soloStep, claimStep, Claim.resume, firstKey, hkey, hresume] using hcmds
    | some key =>
      by_cases huser : key.UserID = ""
      · refine ⟨.hmget :: cmds, ?_⟩
        simpa [run, soloStep, claimStep, Claim.resume, firstKey, hkey, huser, hresume] using hcmds
      · refine ⟨[.hmget], ?_⟩
        simp [run, soloStep, claimStep, Claim.resume, firstKey, hkey, huser]

/-- **A call by itself is a run of its commands.** -/
theorem run_claimOneTimeKeys (o : NameOrder) (cache : Cache) (items : List Item)
    (returned : List (Item × KeyHolder)) :
    ∃ cmds, run soloStep (cache, ⟨items, .next, returned⟩) cmds =
      some ((claimOneTimeKeys o cache items).2,
        ⟨[], .next, returned ++ (claimOneTimeKeys o cache items).1⟩) := by
  induction items generalizing cache returned with
  | nil => exact ⟨[], by simp [run, claimOneTimeKeys]⟩
  | cons item items ih =>
    have hlist : ∀ names, names.Perm (cache.lists (listKey item.uid item.deviceID)) →
        soloStep (cache, ⟨item :: items, .next, returned⟩) (.hgetall names) =
          some (cache, Claim.resume ⟨item :: items, .next, returned⟩ names) :=
      fun names hnames => if_pos hnames
    obtain ⟨scan, hscan⟩ := run_scan cache item items returned
      (o.names item (cache.lists (listKey item.uid item.deviceID)))
    unfold claimOneTimeKeys pickOne
    cases hfirst : firstKey cache (o.names item (cache.lists (listKey item.uid item.deviceID))) with
    | none =>
      obtain ⟨rest, hrest⟩ := ih cache returned
      rw [hfirst] at hscan
      exact ⟨.hgetall _ :: (scan ++ rest), run_cons_eq_some.mpr
        ⟨_, hlist _ (o.perm ..), run_append_eq_some.mpr ⟨_, hscan, hrest⟩⟩⟩
    | some key =>
      obtain ⟨rest, hrest⟩ := ih ((cache.del key).hdel key) (returned ++ [(item, key)])
      rw [hfirst] at hscan
      refine ⟨.hgetall _ :: (scan ++ .del :: .hdel :: rest), run_cons_eq_some.mpr
        ⟨_, hlist _ (o.perm ..), run_append_eq_some.mpr ⟨_, hscan, ?_⟩⟩⟩
      rw [append_assoc] at hrest
      exact hrest

/-! ## Requests -/

/-- The parts of a request by user and device. -/
abbrev Content : Type := List (String × List (String × String))

/-- A request: no user and no device of a user is asked for twice. -/
structure ClaimRequest where
  oneTimeKeys : Content
  users_nodup : (oneTimeKeys.map Prod.fst).Nodup
  devices_nodup : ∀ p ∈ oneTimeKeys, (p.2.map Prod.fst).Nodup

def itemsOf (content : Content) : List Item :=
  content.flatMap fun p => p.2.map fun q => ⟨p.1, q.1, q.2⟩

def SameUser (a b : String × List (String × String)) : Prop := a.1 = b.1 ∧ a.2.Perm b.2

def Iterates (req : ClaimRequest) (content : Content) : Prop :=
  ∃ users : Content, users.Perm req.oneTimeKeys ∧ List.Forall₂ SameUser users content

theorem sameUser_items {users : Content} (h : List.Forall₂ SameUser users content) :
    (itemsOf users).Perm (itemsOf content) := by
  induction h with
  | nil => exact .refl _
  | cons hab _ ih =>
    simp only [itemsOf, flatMap_cons]
    rw [hab.1]
    exact (hab.2.map _).append ih

theorem Iterates.perm (h : Iterates req content) :
    (itemsOf content).Perm (itemsOf req.oneTimeKeys) := by
  obtain ⟨users, hperm, hsame⟩ := h
  exact (sameUser_items hsame).symm.trans (hperm.flatMap_right _)

def Apart (a b : Item) : Prop := ¬ (a.uid = b.uid ∧ a.deviceID = b.deviceID)

theorem ClaimRequest.pairwise_apart (req : ClaimRequest) :
    (itemsOf req.oneTimeKeys).Pairwise Apart := by
  rw [itemsOf, pairwise_flatMap]
  refine ⟨fun p hp => ?_, ?_⟩
  · rw [pairwise_map]
    exact (pairwise_map.mp (req.devices_nodup p hp)).imp fun hne h => hne h.2
  · refine (pairwise_map.mp req.users_nodup).imp fun hne a ha b hb h => ?_
    obtain ⟨_, -, rfl⟩ := mem_map.mp ha
    obtain ⟨_, -, rfl⟩ := mem_map.mp hb
    exact hne h.1

theorem Iterates.pairwise_apart (h : Iterates req content) : (itemsOf content).Pairwise Apart :=
  (h.perm.pairwise_iff fun hab hba => hab ⟨hba.1.symm, hba.2.symm⟩).mpr req.pairwise_apart

theorem exists_iterates_first (h : item ∈ itemsOf req.oneTimeKeys) :
    ∃ content items, Iterates req content ∧ itemsOf content = item :: items := by
  obtain ⟨p, hp, hitem⟩ := mem_flatMap.mp h
  obtain ⟨q, hq, rfl⟩ := mem_map.mp hitem
  refine ⟨(p.1, q :: p.2.erase q) :: req.oneTimeKeys.erase p, _,
    ⟨p :: req.oneTimeKeys.erase p, (perm_cons_erase hp).symm, ?_⟩, rfl⟩
  refine .cons ⟨rfl, perm_cons_erase hq⟩ ?_
  exact forall₂_same.mpr fun _ _ => ⟨rfl, .refl _⟩

/-! ## The keys that are returned -/

def Fits (item : Item) (key : KeyHolder) : Prop :=
  key.UserID = item.uid ∧ key.DeviceID = item.deviceID ∧ key.KeyAlgorithm = item.al

structure RightKeys (cache : Cache) (items : List Item) (returned : List (Item × KeyHolder)) :
    Prop where
  sound : ∀ r ∈ returned, r.1 ∈ items ∧ (∃ keyID, cache.keys keyID = some r.2) ∧ Fits r.1 r.2
  complete : ∀ item ∈ items, (∃ keyID key, cache.keys keyID = some key ∧ Fits item key) →
    ∃ r ∈ returned, r.1 = item

def OnlyFitting (cache : Cache) (items : List Item) : Prop :=
  ∀ item ∈ items, ∀ keyID ∈ cache.lists (listKey item.uid item.deviceID), ∀ key,
    cache.keys keyID = some key → Fits item key

/-- Every stored key has a user, is stored under its name and is on the list of its device. -/
def Cache.Listed (cache : Cache) : Prop :=
  ∀ keyID key, cache.keys keyID = some key → key.keyKey = keyID ∧ key.UserID ≠ "" ∧
    keyID ∈ cache.lists (listKey key.UserID key.DeviceID)

theorem Cache.Listed.setOneTimeKey (h : cache.Listed)
    (huser : key.UserID ≠ "") : (cache.setOneTimeKey key).Listed := by
  intro keyID key' hkey
  have hlists : ∀ {name list}, name ∈ cache.lists list →
      name ∈ (cache.setOneTimeKey key).lists list := by
    intro name list hname
    simp only [Cache.setOneTimeKey, Function.update_apply]
    split_ifs with hlist
    · exact mem_insert_of_mem (hlist ▸ hname)
    · exact hname
  by_cases hname : keyID = key.keyKey
  · subst hname
    obtain rfl : key = key' := by simpa [Cache.setOneTimeKey] using hkey
    exact ⟨rfl, huser, by simp [Cache.setOneTimeKey]⟩
  · have hold : cache.keys keyID = some key' := by simpa [Cache.setOneTimeKey, hname] using hkey
    obtain ⟨hkk, hu, hl⟩ := h keyID key' hold
    exact ⟨hkk, hu, hlists hl⟩

theorem listed_ofKeys {keys : List KeyHolder} (h : ∀ key ∈ keys, key.UserID ≠ "") :
    (Cache.ofKeys keys).Listed := by
  have hfold : ∀ {cache : Cache}, cache.Listed → (keys.foldl Cache.setOneTimeKey cache).Listed := by
    induction keys with
    | nil => exact fun hc => hc
    | cons key keys ih =>
      intro cache hc
      exact ih (fun k hk => h k (mem_cons_of_mem _ hk)) (hc.setOneTimeKey (h key mem_cons_self))
  exact hfold fun keyID key hkey => by cases hkey

theorem firstKey_eq_some {keyIDs : List String}
    (h : firstKey cache keyIDs = some key) : ∃ keyID ∈ keyIDs, cache.keys keyID = some key := by
  induction keyIDs with
  | nil => cases h
  | cons keyID keyIDs ih =>
    have hrest : firstKey cache keyIDs = some key →
        ∃ name ∈ keyID :: keyIDs, cache.keys name = some key := by
      intro h
      obtain ⟨name, hname, hkey⟩ := ih h
      exact ⟨name, mem_cons_of_mem _ hname, hkey⟩
    simp only [firstKey] at h
    split at h
    · rename_i key' hkey
      split_ifs at h
      · cases h
        exact ⟨keyID, mem_cons_self, hkey⟩
      · exact hrest h
    · exact hrest h

theorem Cache.Listed.firstKey_isSome (h : cache.Listed) {keyIDs : List String}
    (hmem : keyID ∈ keyIDs) (hkey : cache.keys keyID = some key) :
    (firstKey cache keyIDs).isSome := by
  induction keyIDs with
  | nil => cases hmem
  | cons name keyIDs ih =>
    simp only [firstKey]
    cases hname : cache.keys name with
    | none =>
      rcases mem_cons.mp hmem with rfl | hmem
      · rw [hname] at hkey
        cases hkey
      · exact ih hmem
    | some key' => simp [(h name key' hname).2.1]

theorem keys_taken {key' : KeyHolder} : ((cache.del key).hdel key).keys keyID = some key' ↔
      keyID ≠ key.keyKey ∧ cache.keys keyID = some key' := by
  by_cases h : keyID = key.keyKey <;> simp [Cache.hdel, Cache.del, h]

theorem lists_taken_subset (list : String) :
    ((cache.del key).hdel key).lists list ⊆ cache.lists list := by
  simp only [Cache.hdel, Cache.del, Function.update_apply]
  split_ifs with h
  · subst h
    exact erase_subset
  · exact fun _ h => h

theorem Cache.Listed.taken (h : cache.Listed) (key : KeyHolder) :
    ((cache.del key).hdel key).Listed := by
  intro keyID key' hkey
  obtain ⟨hne, hkey⟩ := keys_taken.mp hkey
  obtain ⟨hkk, hu, hl⟩ := h keyID key' hkey
  refine ⟨hkk, hu, ?_⟩
  simp only [hdel, del, Function.update_apply]
  split_ifs with hlist
  · exact (mem_erase_of_ne hne).mpr (hlist ▸ hl)
  · exact hl

theorem OnlyFitting.taken (h : OnlyFitting cache items)
    (key : KeyHolder) : OnlyFitting ((cache.del key).hdel key) items :=
  fun item hitem keyID hkeyID key' hkey =>
    h item hitem keyID (lists_taken_subset _ hkeyID) key' (keys_taken.mp hkey).2

theorem RightKeys.skip {returned : List (Item × KeyHolder)} (h : RightKeys cache items returned)
    (hnone : ∀ keyID key, cache.keys keyID = some key → ¬ Fits item key) :
    RightKeys cache (item :: items) returned := by
  obtain ⟨hsound, hcomplete⟩ := h
  refine ⟨fun r hr => ?_, fun i hi hstored => ?_⟩
  · obtain ⟨hmem, hr⟩ := hsound r hr
    exact ⟨mem_cons_of_mem _ hmem, hr⟩
  · rcases mem_cons.mp hi with rfl | hi
    · obtain ⟨keyID, key, hkey, hfits⟩ := hstored
      exact absurd hfits (hnone keyID key hkey)
    · exact hcomplete i hi hstored

theorem RightKeys.take (hlisted : cache.Listed) {returned : List (Item × KeyHolder)}
    (h : RightKeys ((cache.del key).hdel key) items returned) (hkey : cache.keys keyID = some key)
    (hkeyFits : Fits item key) (hitem : ∀ i ∈ items, Apart item i) :
    RightKeys cache (item :: items) ((item, key) :: returned) := by
  obtain ⟨hsound, hcomplete⟩ := h
  refine ⟨fun r hr => ?_, fun i hi hstored => ?_⟩
  · rcases mem_cons.mp hr with rfl | hr
    · exact ⟨mem_cons_self, ⟨keyID, hkey⟩, hkeyFits⟩
    · obtain ⟨hmem, ⟨name, hname⟩, hfits⟩ := hsound r hr
      exact ⟨mem_cons_of_mem _ hmem, ⟨name, (keys_taken.mp hname).2⟩, hfits⟩
  · rcases mem_cons.mp hi with rfl | hi
    · exact ⟨(i, key), mem_cons_self, rfl⟩
    · obtain ⟨name, key', hkey', hfits'⟩ := hstored
      have hne : name ≠ key.keyKey := by
        rintro rfl
        rw [(hlisted keyID key hkey).1, hkey] at hkey'
        obtain rfl := Option.some.inj hkey'
        exact hitem i hi ⟨hkeyFits.1.symm.trans hfits'.1, hkeyFits.2.1.symm.trans hfits'.2.1⟩
      obtain ⟨r, hr, hri⟩ := hcomplete i hi ⟨name, key', keys_taken.mpr ⟨hne, hkey'⟩, hfits'⟩
      exact ⟨r, mem_cons_of_mem _ hr, hri⟩

theorem rightKeys_of_onlyFitting (o : NameOrder) (hlisted : cache.Listed)
    (hapart : items.Pairwise Apart) (hfit : OnlyFitting cache items) :
    RightKeys cache items (claimOneTimeKeys o cache items).1 := by
  induction items generalizing cache with
  | nil => exact ⟨by simp [claimOneTimeKeys], by simp⟩
  | cons item items ih =>
    obtain ⟨hitem, hapart⟩ := pairwise_cons.mp hapart
    have hrest : OnlyFitting cache items := fun i hi => hfit i (mem_cons_of_mem _ hi)
    cases hfirst : firstKey cache (o.names item (cache.lists (listKey item.uid item.deviceID))) with
    | none =>
      simp only [claimOneTimeKeys, pickOne, hfirst]
      refine (ih hlisted hapart hrest).skip fun keyID key hkey hfits => ?_
      -- a key that fits is on the list and would have been found
      obtain ⟨hu, hd, -⟩ := hfits
      obtain ⟨-, -, hl⟩ := hlisted keyID key hkey
      rw [hu, hd] at hl
      have hsome := hlisted.firstKey_isSome ((o.perm item _).mem_iff.mpr hl) hkey
      rw [hfirst] at hsome
      cases hsome
    | some key =>
      obtain ⟨keyID, hkeyID, hkey⟩ := firstKey_eq_some hfirst
      have hkeyFits : Fits item key :=
        hfit item mem_cons_self keyID ((o.perm item _).mem_iff.mp hkeyID) key hkey
      simp only [claimOneTimeKeys, pickOne, hfirst]
      exact (ih (hlisted.taken key) hapart (hrest.taken key)).take hlisted hkey hkeyFits hitem

def firstName (keyID : String) : NameOrder where
  names _ l := if keyID ∈ l then keyID :: l.erase keyID else l
  perm _ l := by
    split_ifs with h
    · exact (perm_cons_erase h).symm
    · exact .refl l

theorem claimOneTimeKeys_firstName (hlisted : cache.Listed) (items : List Item)
    (hkeyID : keyID ∈ cache.lists (listKey item.uid item.deviceID))
    (hkey : cache.keys keyID = some key) :
    (item, key) ∈ (claimOneTimeKeys (firstName keyID) cache (item :: items)).1 := by
  have hfirst : firstKey cache ((firstName keyID).names item
      (cache.lists (listKey item.uid item.deviceID))) = some key := by
    simp only [firstName, if_pos hkeyID, firstKey, hkey, (hlisted keyID key hkey).2.1, ne_eq,
      not_false_eq_true, if_true]
  simp [claimOneTimeKeys, pickOne, hfirst]

/-- **The keys of a claim are the right ones, in every order of its maps, if and only if the lists
of the devices asked for have no other keys.** -/
theorem claimed_right_iff {keys : List KeyHolder} (hkeys : ∀ key ∈ keys, key.UserID ≠ "")
    (req : ClaimRequest) :
    (∀ content o, Iterates req content → RightKeys (.ofKeys keys) (itemsOf content)
        (claimOneTimeKeys o (.ofKeys keys) (itemsOf content)).1) ↔
      OnlyFitting (.ofKeys keys) (itemsOf req.oneTimeKeys) := by
  have hlisted := listed_ofKeys hkeys
  constructor
  · intro h item hitem keyID hkeyID key hkey
    obtain ⟨content, items, hcontent, hitems⟩ := exists_iterates_first hitem
    have hreturned := claimOneTimeKeys_firstName hlisted items hkeyID hkey
    rw [← hitems] at hreturned
    exact ((h content (firstName keyID) hcontent).sound _ hreturned).2.2
  · intro h content o hcontent
    refine rightKeys_of_onlyFitting o hlisted hcontent.pairwise_apart fun item hitem => ?_
    exact h item (hcontent.perm.mem_iff.mp hitem)

/-! ## A key of another algorithm -/

def plainKey : KeyHolder := ⟨"D", "@a:x", "1", "k", "curve25519", ""⟩

def signedRequest : ClaimRequest where
  oneTimeKeys := [("@a:x", [("D", "signed_curve25519")])]
  users_nodup := by decide
  devices_nodup := by decide

def plainRequest : ClaimRequest where
  oneTimeKeys := [("@a:x", [("D", "curve25519")])]
  users_nodup := by decide
  devices_nodup := by decide

theorem claimed_right_plainKey :
    (∀ key ∈ [plainKey], key.UserID ≠ "") ∧
      ∀ content o, Iterates plainRequest content → RightKeys (.ofKeys [plainKey])
        (itemsOf content) (claimOneTimeKeys o (.ofKeys [plainKey]) (itemsOf content)).1 := by
  refine ⟨by decide, (claimed_right_iff (by decide) plainRequest).mpr ?_⟩
  intro item hitem keyID _ key hkey
  obtain rfl := mem_singleton.mp hitem
  obtain rfl := mem_singleton.mp (mem_of_keys hkey).1
  exact ⟨rfl, rfl, rfl⟩

theorem plainKey_claimed_as_signed :
    (claimOneTimeKeys (firstName "") (.ofKeys [plainKey]) (itemsOf signedRequest.oneTimeKeys)).1 =
        [(⟨"@a:x", "D", "signed_curve25519"⟩, plainKey)] ∧
      plainKey.KeyAlgorithm = "curve25519" ∧
      ¬ RightKeys (.ofKeys [plainKey]) (itemsOf signedRequest.oneTimeKeys)
        (claimOneTimeKeys (firstName "") (.ofKeys [plainKey])
          (itemsOf signedRequest.oneTimeKeys)).1 := by
  have hreturned : (claimOneTimeKeys (firstName "") (.ofKeys [plainKey])
      (itemsOf signedRequest.oneTimeKeys)).1 =
        [(⟨"@a:x", "D", "signed_curve25519"⟩, plainKey)] := rfl
  refine ⟨hreturned, rfl, fun h => ?_⟩
  obtain ⟨-, -, -, -, hal⟩ := h.sound (⟨"@a:x", "D", "signed_curve25519"⟩, plainKey)
    (by rw [hreturned]; exact mem_singleton_self _)
  revert hal
  decide

end Ligase.Crypto
