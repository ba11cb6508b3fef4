import Webthree.Lemmas.BloomFilter
import Webthree.Lib.Transition
import Webthree.Whisper.WhisperHost

/-!
# Watches, filters and the bloom of the host

Every watch has its filter, every filter is counted as often as it is watched, and the bloom counts the blooms of the filters of all
watches. A message is delivered to the watches whose filters match it, if the bloom lets it through.
-/

namespace Webthree

namespace Shh

open TopicBloomFilterHash

namespace WhisperHost

/-- How many watches use a filter. -/
def users (s : WhisperHost) (h : H256) : Nat := s.m_watches.uses fun w => w.id == h

/-- The bloom of the filter of a watch has the bit. -/
def sets (m : Assoc H256 InstalledFilter) (b : Nat) (w : ClientWatch) : Bool :=
  (m.find w.id).any fun f => isBitSet f.filter.exportBloom b

/-- How many watches have a filter whose bloom has the bit. -/
def setters (s : WhisperHost) (b : Nat) : Nat := s.m_watches.uses (sets s.m_filters b)

/-- The watches have their filters and the filters are counted; so are the bits of the bloom, which are those of the filters. -/
structure Consistent (s : WhisperHost) : Prop where
  watched : ∀ i w, s.m_watches.find i = some w → ∃ f, s.m_filters.find w.id = some f
  counted : ∀ h f, s.m_filters.find h = some f → 0 < s.users h ∧ f.refCount = s.users h
  counters : ∀ b, s.m_bloom.m_refCounter b = s.setters b
  union : ∀ b : Fin 512, isBitSet s.m_bloom.bits b = true ↔
    ∃ h f, s.m_filters.find h = some f ∧ isBitSet f.filter.exportBloom b = true

/-- The filter of a watch matches the message. -/
def Matches (s : WhisperHost) (m : Envelope) (w : ClientWatch) : Prop :=
  ∃ f, s.m_filters.find w.id = some f ∧ f.filter.matches m = true

instance (s : WhisperHost) (m : Envelope) (w : ClientWatch) : Decidable (s.Matches m w) :=
  decidable_of_iff (((s.m_filters.find w.id).any fun f => f.filter.matches m) = true) (Option.any_eq_true _ _)

/-- A watch with a message added to its changes. -/
def received (h : H256) (w : ClientWatch) : ClientWatch := { w with changes := w.changes ++ [h] }

/-! ## What holds after any calls -/

/-- The tables are tables, and every filter is that of its topics and has a count in range. -/
structure Basic (sha3 : Bytes → H256) (s : WhisperHost) : Prop where
  filters : s.m_filters.Proper
  watches : s.m_watches.Proper
  topics : ∀ h f, s.m_filters.find h = some f → f.filter = .ofTopics sha3 f.full ∧ f.refCount < 2 ^ 32

variable {sha3 : Bytes → H256} {s : WhisperHost}

/-- A filter that is added is found; one that is installed already counts one user more. -/
theorem find_addFilter (m : Assoc H256 InstalledFilter) (h k : H256) (f : InstalledFilter) : (addFilter m h f).find k =
    if k = h then some ((m.find h).elim f fun it => { it with refCount := (it.refCount + 1) % 2 ^ 32 }) else m.find k := by
  unfold addFilter
  cases m.find h with
  | none => rw [Assoc.find_set, Option.elim_none]
  | some it => rw [Assoc.find_set, Option.elim_some]

/-- The keys of the filters stay distinct when one is added. -/
theorem proper_addFilter {m : Assoc H256 InstalledFilter} (hm : m.Proper) (h : H256) (f : InstalledFilter) : (addFilter m h f).Proper := by
  unfold addFilter
  split
  · exact hm.set _ _
  · exact hm.set _ _

/-- The filter of topics as `installWatch` makes it. -/
def installed (sha3 : Bytes → H256) (t : List Topic) : InstalledFilter := { full := t, filter := .ofTopics sha3 t }

/-- The hash that it is installed under. -/
def filterHash (sha3 : Bytes → H256) (t : List Topic) : H256 := TopicFilter.sha3 sha3 (.ofTopics sha3 t)

/-- A watch is installed if the counters have room for its filter. -/
theorem installWatch_of_room {t : List Topic} (hroom : s.m_bloom.Room (TopicFilter.ofTopics sha3 t).exportBloom) :
    s.installWatch sha3 t = (some s.newId,
      { s with
        m_filters := addFilter s.m_filters (filterHash sha3 t) (installed sha3 t)
        m_watches := s.m_watches.set s.newId { id := filterHash sha3 t }
        m_bloom := (s.m_bloom.addRaw (TopicFilter.ofTopics sha3 t).exportBloom).1 }) := by
  have hok := (TopicBloomFilter.addRaw_ok_iff _ _).mpr hroom
  simp only [WhisperHost.installWatch, hok, if_true, filterHash, installed, newId]

/-- Otherwise its filter stays behind. -/
theorem installWatch_of_full {t : List Topic} (hfull : ¬ s.m_bloom.Room (TopicFilter.ofTopics sha3 t).exportBloom) :
    s.installWatch sha3 t = (none,
      { s with
        m_filters := addFilter s.m_filters (filterHash sha3 t) (installed sha3 t)
        m_bloom := (s.m_bloom.addRaw (TopicFilter.ofTopics sha3 t).exportBloom).1 }) := by
  have hok := mt (TopicBloomFilter.addRaw_ok_iff _ _).mp hfull
  simp only [WhisperHost.installWatch, hok, Bool.false_eq_true, if_false, filterHash, installed]

/-- The filters after one watch less. -/
def release (m : Assoc H256 InstalledFilter) (id : H256) (fit : InstalledFilter) : Assoc H256 InstalledFilter :=
  if (fit.refCount + (2 ^ 32 - 1)) % 2 ^ 32 = 0 then m.remove id
  else m.set id { fit with refCount := (fit.refCount + (2 ^ 32 - 1)) % 2 ^ 32 }

/-- To uninstall a watch releases its filter, whose bloom is taken out with its last user. -/
theorem uninstallWatch_of_find {i : Nat} {w : ClientWatch} (hw : s.m_watches.find i = some w) {fit : InstalledFilter}
    (hfit : s.m_filters.find w.id = some fit) : s.uninstallWatch i =
      { s with
        m_watches := s.m_watches.remove i
        m_bloom := s.m_bloom.removeRaw fit.filter.exportBloom
        m_filters := release s.m_filters w.id fit } := by
  simp only [WhisperHost.uninstallWatch, hw, hfit, release]

/-- A call that changes filters leaves filters of topics behind. -/
theorem Basic.installWatch (hs : s.Basic sha3) (t : List Topic) : (s.installWatch sha3 t).2.Basic sha3 := by
  have hfilters := proper_addFilter hs.filters (filterHash sha3 t) (installed sha3 t)
  have htopics : ∀ h f, (addFilter s.m_filters (filterHash sha3 t) (installed sha3 t)).find h = some f →
      f.filter = .ofTopics sha3 f.full ∧ f.refCount < 2 ^ 32 := by
    intro h f hf
    rw [find_addFilter] at hf
    by_cases hh : h = filterHash sha3 t
    · rw [if_pos hh, Option.some.injEq] at hf
      subst hf
      cases hfind : s.m_filters.find (filterHash sha3 t) with
      | none => exact ⟨rfl, show 1 < 2 ^ 32 by decide⟩
      | some it => exact ⟨(hs.topics _ it hfind).1, Nat.mod_lt _ (by decide)⟩
    · rw [if_neg hh] at hf
      exact hs.topics h f hf
  by_cases hroom : s.m_bloom.Room (TopicFilter.ofTopics sha3 t).exportBloom
  · rw [installWatch_of_room hroom]
    exact ⟨hfilters, hs.watches.set _ _, htopics⟩
  · rw [installWatch_of_full hroom]
    exact ⟨hfilters, hs.watches, htopics⟩

/-- Uninstalling a watch keeps what the host needs of its maps. -/
theorem Basic.uninstallWatch (hs : s.Basic sha3) (i : Nat) : (s.uninstallWatch i).Basic sha3 := by
  cases hw : s.m_watches.find i with
  | none =>
    have hsame : s.uninstallWatch i = s := by rw [WhisperHost.uninstallWatch, hw]
    rwa [hsame]
  | some w =>
    cases hfit : s.m_filters.find w.id with
    | none =>
      have hsame : s.uninstallWatch i = { s with m_watches := s.m_watches.remove i } := by
        simp only [WhisperHost.uninstallWatch, hw, hfit]
      rw [hsame]
      exact ⟨hs.filters, hs.watches.remove i, hs.topics⟩
    | some fit =>
      rw [uninstallWatch_of_find hw hfit]
      refine ⟨?_, hs.watches.remove i, fun h f hf => ?_⟩
      · unfold release
        split
        · exact hs.filters.remove _
        · exact hs.filters.set _ _
      · dsimp only [release] at hf
        split at hf
        · rw [Assoc.find_remove] at hf
          split at hf
          · cases hf
          · exact hs.topics h f hf
        · rw [Assoc.find_set] at hf
          split at hf
          · cases hf
            exact ⟨(hs.topics _ fit hfit).1, Nat.mod_lt _ (by decide)⟩
          · exact hs.topics h f hf

/-! ## Delivery -/

/-- To change every watch changes the one that is found. -/
theorem find_map_snd (g : ClientWatch → ClientWatch) (ws : Assoc Nat ClientWatch) (i : Nat) :
    Assoc.find (ws.map fun e => (e.1, g e.2)) i = (ws.find i).map g := by
  induction ws with
  | nil => rfl
  | cons e ws ih =>
    rw [List.map_cons, Assoc.find, Assoc.find, ih]
    split <;> rfl

/-- The watches of a filter receive the hash, the others stay as they are. -/
theorem notify_eq (id h : H256) (ws : Assoc Nat ClientWatch) :
    notify id h ws = ws.map fun e => (e.1, if e.2.id = id then received h e.2 else e.2) := by
  refine List.map_congr_left fun e _ => ?_
  split <;> rfl

/-- The loops of `inject` over the filters and the watches. -/
theorem notifyAll_eq {m : Assoc H256 InstalledFilter} (hm : m.Proper) (e : Envelope) (h : H256) (ws : Assoc Nat ClientWatch) :
    m.foldl (fun ws f => if f.2.filter.matches e then notify f.1 h ws else ws) ws =
      ws.map fun i => (i.1, if (m.find i.2.id).any fun f => f.filter.matches e then received h i.2 else i.2) := by
  induction m generalizing ws with
  | nil => simp [Assoc.find]
  | cons f m ih =>
    obtain ⟨hf, hm⟩ := List.nodup_cons.mp hm
    have hnone : ∀ k, k = f.1 → Assoc.find m k = none := by
      rintro k rfl
      by_contra hsome
      obtain ⟨g, hg⟩ := Option.ne_none_iff_exists'.mp hsome
      exact hf (List.mem_map.mpr ⟨(f.1, g), Assoc.mem_of_find_eq_some hg, rfl⟩)
    rw [List.foldl_cons, ih hm]
    by_cases hmatch : f.2.filter.matches e = true
    · rw [if_pos hmatch, notify_eq, List.map_map]
      refine List.map_congr_left fun i _ => ?_
      by_cases hi : i.2.id = f.1
      · simp [hi, received, Assoc.find, hnone f.1 rfl, hmatch]
      · simp [hi, Assoc.find, Ne.symm hi]
    · rw [if_neg hmatch]
      refine List.map_congr_left fun i _ => ?_
      by_cases hi : i.2.id = f.1
      · simp [hi, Assoc.find, hnone f.1 rfl, hmatch]
      · simp [Assoc.find, Ne.symm hi]

/-- What a watch holds after a message has come. -/
theorem find_deliver (hs : s.Basic sha3) (m : Envelope) (h : H256) (i : Nat) : (s.deliver m h).find i =
    (s.m_watches.find i).map fun w => if m.matchesBloomFilter s.m_bloom.bits = true ∧ s.Matches m w then received h w else w := by
  have hany : ∀ w : ClientWatch, ((s.m_filters.find w.id).any fun f => f.filter.matches m) = true ↔ s.Matches m w := fun w => by
    rw [Option.any_eq_true, Matches]
  unfold deliver
  split
  · rename_i hgate
    rw [notifyAll_eq hs.filters, find_map_snd fun w => if (s.m_filters.find w.id).any fun f => f.filter.matches m then received h w else w]
    refine congrArg (Option.map · (s.m_watches.find i)) (funext fun w => ?_)
    simp only [hany, hgate, true_and]
  · rename_i hgate
    simp [hgate]

/-- A message changes only what the watches have received, never their filters. -/
theorem map_fst_deliver (hs : s.Basic sha3) (m : Envelope) (h : H256) : ∃ g : ClientWatch → ClientWatch, (∀ w, (g w).id = w.id) ∧
    s.deliver m h = s.m_watches.map fun e => (e.1, g e.2) := by
  unfold deliver
  split
  · refine ⟨fun w => if (s.m_filters.find w.id).any fun f => f.filter.matches m then received h w else w, fun w => ?_,
      notifyAll_eq hs.filters m h s.m_watches⟩
    dsimp only
    split <;> rfl
  · exact ⟨id, fun _ => rfl, by simp⟩

/-! ## Counting -/

/-- A filter has users when some watch names it. -/
theorem Basic.users_pos_iff (hs : s.Basic sha3) (h : H256) : 0 < s.users h ↔ ∃ i w, s.m_watches.find i = some w ∧ w.id = h := by
  rw [users, Assoc.uses_pos_iff hs.watches]
  simp

/-- A watch sets a bit when the bloom of its filter does. -/
theorem sets_iff {m : Assoc H256 InstalledFilter} {b : Nat} {w : ClientWatch} : sets m b w = true ↔
    ∃ f, m.find w.id = some f ∧ isBitSet f.filter.exportBloom b = true := Option.any_eq_true _ _

/-- The bits of the filters are those that are counted. -/
theorem Basic.setters_pos_iff (hs : s.Basic sha3) (hcounted : ∀ h f, s.m_filters.find h = some f → 0 < s.users h) (b : Nat) :
    0 < s.setters b ↔ ∃ h f, s.m_filters.find h = some f ∧ isBitSet f.filter.exportBloom b = true := by
  rw [setters, Assoc.uses_pos_iff hs.watches]
  constructor
  · rintro ⟨i, w, -, hset⟩
    obtain ⟨f, hf, hb⟩ := sets_iff.mp hset
    exact ⟨w.id, f, hf, hb⟩
  · rintro ⟨h, f, hf, hb⟩
    obtain ⟨i, w, hw, rfl⟩ := (hs.users_pos_iff h).mp (hcounted h f hf)
    exact ⟨i, w, hw, sets_iff.mpr ⟨f, hf, hb⟩⟩

/-- The counters of the topic bloom stand for the watches that set each bit. -/
theorem Consistent.counts (hs : s.Basic sha3) (hc : s.Consistent) : s.m_bloom.Counts fun b => s.setters b := fun b =>
  ⟨hc.counters b, by rw [hc.union b, hs.setters_pos_iff (fun h f hf => (hc.counted h f hf).1)]⟩

/-- Consistency follows from the counters and from the watches of each filter. -/
theorem Consistent.of_counts (hs : s.Basic sha3) (hwatched : ∀ i w, s.m_watches.find i = some w → ∃ f, s.m_filters.find w.id = some f)
    (hcounted : ∀ h f, s.m_filters.find h = some f → 0 < s.users h ∧ f.refCount = s.users h)
    (hcounts : s.m_bloom.Counts fun b => s.setters b) : s.Consistent :=
  ⟨hwatched, hcounted, fun b => (hcounts b).1,
    fun b => by rw [(hcounts b).2, hs.setters_pos_iff (fun h f hf => (hcounted h f hf).1)]⟩

/-- A filter that no watch uses is not there. -/
theorem Consistent.users_eq_zero (hs : s.Basic sha3) (hc : s.Consistent) {h : H256} (hnone : s.m_filters.find h = none) :
    s.users h = 0 := by
  refine Nat.eq_zero_of_not_pos fun hu => ?_
  obtain ⟨i, w, hw, rfl⟩ := (hs.users_pos_iff h).mp hu
  obtain ⟨f, hf⟩ := hc.watched i w hw
  exact nomatch hnone.symm.trans hf

/-! ## A watch more -/

section

variable {t : List Topic}

/-- A filter with the hash of the topics is their filter, and its count has room. -/
def Known (sha3 : Bytes → H256) (s : WhisperHost) (t : List Topic) : Prop :=
  ∀ g, s.m_filters.find (filterHash sha3 t) = some g → g.filter = .ofTopics sha3 t ∧ g.refCount + 1 < 2 ^ 32

/-- A new watch is one user more of its filter, and the watch that it replaces one less. -/
theorem users_set (s : WhisperHost) (n : Nat) (h k : H256) :
    (s.m_watches.set n { id := h }).uses (fun w => w.id == k) + s.m_watches.usesAt n (fun w => w.id == k) =
      s.users k + if h = k then 1 else 0 := by
  rw [Assoc.uses_set, users]
  by_cases hk : h = k
  · simp [hk]
  · simp [hk]

/-- The filter that stands there after a watch of it has been added. -/
theorem find_added (hknown : s.Known sha3 t) : ∃ f, (addFilter s.m_filters (filterHash sha3 t) (installed sha3 t)).find
      (filterHash sha3 t) = some f ∧ f.filter = .ofTopics sha3 t ∧
    (s.m_filters.find (filterHash sha3 t) = none → f.refCount = 1) ∧
      ∀ g, s.m_filters.find (filterHash sha3 t) = some g → f.refCount = g.refCount + 1 := by
  rw [find_addFilter, if_pos rfl]
  cases hfind : s.m_filters.find (filterHash sha3 t) with
  | none => exact ⟨_, rfl, rfl, fun _ => rfl, fun g hg => nomatch hg⟩
  | some g =>
    obtain ⟨hfilter, hcount⟩ := hknown g hfind
    refine ⟨_, rfl, hfilter, (fun hnone => absurd hnone (Option.some_ne_none g)), fun g' hg' => ?_⟩
    cases hg'
    exact Nat.mod_eq_of_lt hcount

/-- Installing a watch keeps the host consistent, when its id is free, the bloom has room and a known filter is found again. -/
theorem Consistent.installWatch (hs : s.Basic sha3) (hc : s.Consistent) (hfree : s.m_watches.find s.newId = none)
    (hroom : s.m_bloom.Room (TopicFilter.ofTopics sha3 t).exportBloom) (hknown : s.Known sha3 t) :
    (s.installWatch sha3 t).2.Consistent := by
  obtain ⟨f, hf, hfilter, hnew, hold⟩ := find_added hknown
  have hother : ∀ k, k ≠ filterHash sha3 t →
      (addFilter s.m_filters (filterHash sha3 t) (installed sha3 t)).find k = s.m_filters.find k := fun k hk => by
    rw [find_addFilter, if_neg hk]
  have husers : ∀ k, (s.m_watches.set s.newId { id := filterHash sha3 t }).uses (fun w => w.id == k) =
      s.users k + if filterHash sha3 t = k then 1 else 0 := fun k => by
    rw [← users_set, Assoc.usesAt, hfree, Option.elim_none, Nat.add_zero]
  refine Consistent.of_counts (hs.installWatch t) ?_ ?_ ?_
  · rw [installWatch_of_room hroom]
    intro i w hw
    dsimp only at hw ⊢
    by_cases hid : w.id = filterHash sha3 t
    · exact ⟨f, by rw [hid, hf]⟩
    · rw [hother _ hid]
      rw [Assoc.find_set] at hw
      split at hw
      · cases hw
        exact absurd rfl hid
      · exact hc.watched i w hw
  · rw [installWatch_of_room hroom]
    intro k g hg
    dsimp only at hg
    show 0 < Assoc.uses _ _ ∧ g.refCount = Assoc.uses _ _
    rw [husers]
    by_cases hk : k = filterHash sha3 t
    · subst hk
      obtain rfl := Option.some.inj (hf.symm.trans hg)
      rw [if_pos rfl]
      refine ⟨Nat.succ_pos _, ?_⟩
      cases hfind : s.m_filters.find (filterHash sha3 t) with
      | none => rw [hnew hfind, hc.users_eq_zero hs hfind]
      | some g' => rw [hold g' hfind, (hc.counted _ g' hfind).2]
    · rw [hother k hk] at hg
      rw [if_neg (Ne.symm hk)]
      exact hc.counted k g hg
  · have hsets : ∀ (b : Nat) (w : ClientWatch), (∃ g, s.m_filters.find w.id = some g) →
        sets s.m_filters b w = sets (addFilter s.m_filters (filterHash sha3 t) (installed sha3 t)) b w := by
      rintro b w ⟨g, hg⟩
      by_cases hid : w.id = filterHash sha3 t
      · rw [sets, sets, hg, hid, hf, Option.any_some, Option.any_some, hfilter, (hknown g (hid ▸ hg)).1]
      · rw [sets, sets, hother _ hid]
    rw [installWatch_of_room hroom]
    refine (hc.counts hs).addRaw hroom fun b => ?_
    have h1 := Assoc.uses_set s.m_watches s.newId { id := filterHash sha3 t }
      (sets (addFilter s.m_filters (filterHash sha3 t) (installed sha3 t)) b)
    rw [Assoc.usesAt, hfree, Option.elim_none, Nat.add_zero] at h1
    have h2 : s.m_watches.uses (sets (addFilter s.m_filters (filterHash sha3 t) (installed sha3 t)) b) = s.setters b :=
      Assoc.uses_congr fun e he => (hsets b e.2 (hc.watched e.1 e.2 (Assoc.find_eq_some_of_mem hs.watches he))).symm
    have h3 : sets (addFilter s.m_filters (filterHash sha3 t) (installed sha3 t)) b { id := filterHash sha3 t } =
        isBitSet (TopicFilter.ofTopics sha3 t).exportBloom b := by
      rw [sets, hf, Option.any_some, hfilter]
    rw [h2, h3] at h1
    exact h1

end

/-! ## A watch less -/

/-- Releasing a filter drops it with its last user, and counts one user less otherwise. -/
theorem find_release {m : Assoc H256 InstalledFilter} (id k : H256) {fit : InstalledFilter} (hpos : 0 < fit.refCount)
    (hlt : fit.refCount < 2 ^ 32) : (release m id fit).find k =
      if k = id then (if fit.refCount = 1 then none else some { fit with refCount := fit.refCount - 1 }) else m.find k := by
  have hcount : (fit.refCount + (2 ^ 32 - 1)) % 2 ^ 32 = fit.refCount - 1 := by omega
  rw [release, hcount]
  by_cases h1 : fit.refCount = 1
  · rw [if_pos (by omega), Assoc.find_remove, if_pos h1]
  · rw [if_neg (by omega), Assoc.find_set, if_neg h1]

/-- Uninstalling a watch keeps the host consistent. -/
theorem Consistent.uninstallWatch (hs : s.Basic sha3) (hc : s.Consistent) (i : Nat) : (s.uninstallWatch i).Consistent := by
  have hs' := hs.uninstallWatch i
  cases hw : s.m_watches.find i with
  | none =>
    have hsame : s.uninstallWatch i = s := by rw [WhisperHost.uninstallWatch, hw]
    rwa [hsame]
  | some w =>
    obtain ⟨fit, hfit⟩ := hc.watched i w hw
    obtain ⟨hpos, hcount⟩ := hc.counted w.id fit hfit
    have hfind : ∀ k, (release s.m_filters w.id fit).find k = _ := fun k =>
      find_release w.id k (by omega) (hs.topics _ fit hfit).2
    have husers : ∀ k, (s.m_watches.remove i).uses (fun v => v.id == k) + (if w.id = k then 1 else 0) = s.users k := fun k => by
      rw [users, ← Assoc.uses_remove hs.watches i, Assoc.usesAt, hw, Option.elim_some]
      by_cases hk : w.id = k
      · simp [hk]
      · simp [hk]
    have hkept : ∀ (j : Nat) (v : ClientWatch), (s.m_watches.remove i).find j = some v → v.id = w.id → fit.refCount ≠ 1 := by
      intro j v hv hid
      have h1 : 0 < (s.m_watches.remove i).uses fun v => v.id == w.id :=
        (Assoc.uses_pos_iff (hs.watches.remove i) _).mpr ⟨j, v, hv, by simp [hid]⟩
      have h2 := husers w.id
      rw [if_pos rfl] at h2
      omega
    have hold : ∀ (j : Nat) (v : ClientWatch), (s.m_watches.remove i).find j = some v → s.m_watches.find j = some v := by
      intro j v hv
      rw [Assoc.find_remove] at hv
      split at hv
      · cases hv
      · exact hv
    rw [uninstallWatch_of_find hw hfit] at hs' ⊢
    refine Consistent.of_counts hs' ?_ ?_ ?_
    · intro j v hv
      dsimp only at hv ⊢
      rw [hfind]
      by_cases hid : v.id = w.id
      · rw [if_pos hid, if_neg (hkept j v hv hid)]
        exact ⟨_, rfl⟩
      · rw [if_neg hid]
        exact hc.watched j v (hold j v hv)
    · intro k f hf
      dsimp only at hf
      rw [hfind] at hf
      show 0 < Assoc.uses _ _ ∧ f.refCount = Assoc.uses _ _
      have h1 := husers k
      by_cases hk : k = w.id
      · subst hk
        rw [if_pos rfl] at hf h1
        split at hf
        · cases hf
        · cases hf
          dsimp only
          omega
      · rw [if_neg hk] at hf
        rw [if_neg (Ne.symm hk), Nat.add_zero] at h1
        rw [h1]
        exact hc.counted k f hf
    · have hsetters : ∀ b, s.setters b =
          (s.m_watches.remove i).uses (sets (release s.m_filters w.id fit) b) + (isBitSet fit.filter.exportBloom b).toNat := by
        intro b
        have h1 := Assoc.uses_remove hs.watches i (sets s.m_filters b)
        rw [Assoc.usesAt, hw, Option.elim_some] at h1
        have h2 : sets s.m_filters b w = isBitSet fit.filter.exportBloom b := by rw [sets, hfit, Option.any_some]
        have h3 : (s.m_watches.remove i).uses (sets s.m_filters b) =
            (s.m_watches.remove i).uses (sets (release s.m_filters w.id fit) b) := by
          refine Assoc.uses_congr fun e he => ?_
          have hv := Assoc.find_eq_some_of_mem (hs.watches.remove i) he
          rw [sets, sets, hfind]
          by_cases hid : e.2.id = w.id
          · rw [if_pos hid, if_neg (hkept e.1 e.2 hv hid), hid, hfit, Option.any_some, Option.any_some]
          · rw [if_neg hid]
        rw [h2, h3] at h1
        exact h1.symm
      dsimp only [setters]
      exact (hc.counts hs).removeRaw fun b => hsetters b

/-! ## Messages -/

/-- A change that keeps the filter of each watch keeps the number of users. -/
theorem uses_map {g : ClientWatch → ClientWatch} {p : ClientWatch → Bool} (hp : ∀ w, p (g w) = p w) (ws : Assoc Nat ClientWatch) :
    Assoc.uses (ws.map fun e => (e.1, g e.2)) p = ws.uses p := by
  rw [Assoc.uses, Assoc.uses, List.countP_map]
  exact List.countP_congr fun e _ => by simp [hp]

/-- Watches that differ in their changes only are as consistent. -/
theorem Consistent.of_map (hc : s.Consistent) {g : ClientWatch → ClientWatch} (hg : ∀ w, (g w).id = w.id) {s' : WhisperHost}
    (hfilters : s'.m_filters = s.m_filters) (hbloom : s'.m_bloom = s.m_bloom)
    (hwatches : s'.m_watches = s.m_watches.map fun e => (e.1, g e.2)) : s'.Consistent := by
  have husers : ∀ h, s'.users h = s.users h := fun h => by
    rw [users, hwatches]
    exact uses_map (fun w => by rw [hg]) _
  have hsetters : ∀ b, s'.setters b = s.setters b := fun b => by
    rw [setters, hwatches, hfilters]
    exact uses_map (fun w => by rw [sets, hg]; rfl) _
  refine ⟨fun i w hw => ?_, fun h f hf => ?_, fun b => ?_, fun b => ?_⟩
  · rw [hwatches, find_map_snd] at hw
    obtain ⟨v, hv, rfl⟩ := Option.map_eq_some_iff.mp hw
    rw [hfilters, hg]
    exact hc.watched i v hv
  · rw [husers]
    exact hc.counted h f (hfilters ▸ hf)
  · rw [hbloom, hsetters]
    exact hc.counters b
  · rw [hbloom, hfilters]
    exact hc.union b

/-- The ids of the watches stay distinct under delivery. -/
theorem Basic.deliver (hs : s.Basic sha3) (m : Envelope) (h : H256) : (s.deliver m h).Proper := by
  obtain ⟨g, -, heq⟩ := map_fst_deliver hs m h
  have hkeys : (s.deliver m h).map Prod.fst = s.m_watches.map Prod.fst := by
    rw [heq, List.map_map]
    rfl
  rw [Assoc.Proper, hkeys]
  exact hs.watches

/-- An expired message is not taken. -/
theorem inject_of_expired {utcTime : Nat} {m : Envelope} (hm : m.isExpired utcTime = true) : s.inject sha3 utcTime m = s := by
  rw [inject, if_pos hm]

/-- A message that is held already is not taken again. -/
theorem inject_of_seen {utcTime : Nat} {m e : Envelope} (he : s.m_messages.find (m.sha3 sha3) = some e) :
    s.inject sha3 utcTime m = s := by
  unfold inject
  split
  · rfl
  · simp only [he]

/-- A new message is held, and delivered when the bloom of the topics admits it. -/
theorem inject_of_new {utcTime : Nat} {m : Envelope} (hm : m.isExpired utcTime = false) (hnew : s.m_messages.find (m.sha3 sha3) = none) :
    s.inject sha3 utcTime m =
      { s with
        m_messages := s.m_messages.set (m.sha3 sha3) m
        m_expiryQueue := insertQueue s.m_expiryQueue (m.m_expiry, m.sha3 sha3)
        m_watches := s.deliver m (m.sha3 sha3) } := by
  simp only [inject, hm, hnew, Bool.false_eq_true, if_false]

/-- Injecting a message keeps what the host needs of its maps. -/
theorem Basic.inject (hs : s.Basic sha3) (utcTime : Nat) (m : Envelope) : (s.inject sha3 utcTime m).Basic sha3 := by
  cases hm : m.isExpired utcTime with
  | true => rwa [inject_of_expired hm]
  | false =>
    cases hfind : s.m_messages.find (m.sha3 sha3) with
    | some e => rwa [inject_of_seen hfind]
    | none =>
      rw [inject_of_new hm hfind]
      exact ⟨hs.filters, hs.deliver m _, hs.topics⟩

/-- Injecting a message keeps the host consistent. -/
theorem Consistent.inject (hs : s.Basic sha3) (hc : s.Consistent) (utcTime : Nat) (m : Envelope) :
    (s.inject sha3 utcTime m).Consistent := by
  cases hm : m.isExpired utcTime with
  | true => rwa [inject_of_expired hm]
  | false =>
    cases hfind : s.m_messages.find (m.sha3 sha3) with
    | some e => rwa [inject_of_seen hfind]
    | none =>
      rw [inject_of_new hm hfind]
      obtain ⟨g, hg, heq⟩ := map_fst_deliver hs m (m.sha3 sha3)
      exact hc.of_map hg rfl rfl heq

/-! ## The gate -/

/-- A watch whose filter matches the message has a filter with a topic that is not null. -/
def Named (s : WhisperHost) (m : Envelope) : Prop :=
  ∃ i w f, s.m_watches.find i = some w ∧ s.m_filters.find w.id = some f ∧ f.filter.matches m = true ∧
    ∃ t ∈ f.full, t.bytes.any (· ≠ 0) = true

/-- The bloom lets through what a filter with a topic that is not null matches. -/
theorem gate_of_named (hs : s.Basic sha3) (hc : s.Consistent) {m : Envelope} (hm : s.Named m) :
    m.matchesBloomFilter s.m_bloom.bits = true := by
  obtain ⟨i, w, f, -, hf, hmatch, t, ht, hnull⟩ := hm
  have htopics := (hs.topics _ f hf).1
  rw [htopics] at hmatch
  refine List.any_eq_true.mpr ⟨_, TopicFilter.mem_of_matches hmatch ht hnull, contains_iff.mpr fun b hb => (hc.union b).mpr ?_⟩
  refine ⟨w.id, f, hf, ?_⟩
  rw [htopics]
  exact TopicFilter.bloom_of_topics sha3 ht hb

end WhisperHost

namespace HostOp

open WhisperHost

/-- A call does what it is for: the tables and the bloom are consistent behind it; a new watch has the filter of its topics; and a
message that has not been seen is added to the changes of the watches whose filters match it, once, and to no others. -/
def Right (sha3 : Bytes → H256) (s : WhisperHost) (op : HostOp) : Prop :=
  (op.next sha3 s).Consistent ∧
    match op with
    | .installWatch t => ∃ n w f, (s.installWatch sha3 t).1 = some n ∧ (s.installWatch sha3 t).2.m_watches.find n = some w ∧
        (s.installWatch sha3 t).2.m_filters.find w.id = some f ∧ f.filter = .ofTopics sha3 t
    | .inject utcTime m => s.m_messages.find (m.sha3 sha3) = none → ∀ i, (s.inject sha3 utcTime m).m_watches.find i =
        (s.m_watches.find i).map fun w => if s.Matches m w then received (m.sha3 sha3) w else w
    | _ => True

/-- The number of a new watch is free, the counters have room for its filter, and so has the count of the filter if it is there,
which is then the same filter. A message that is not seen but matched has not expired, and the bloom lets it through. -/
def Allowed (sha3 : Bytes → H256) (s : WhisperHost) : HostOp → Prop
  | .installWatch t => s.m_watches.find s.newId = none ∧ s.m_bloom.Room (TopicFilter.ofTopics sha3 t).exportBloom ∧ s.Known sha3 t
  | .inject utcTime m => s.m_messages.find (m.sha3 sha3) = none → (∃ i w, s.m_watches.find i = some w ∧ s.Matches m w) →
      m.isExpired utcTime = false ∧ (s.Named m ∨ m.matchesBloomFilter s.m_bloom.bits = true)
  | _ => True

variable {sha3 : Bytes → H256} {s : WhisperHost}

/-- Every operation keeps what the host needs of its maps. -/
theorem next_basic (hs : s.Basic sha3) (op : HostOp) : (op.next sha3 s).Basic sha3 := by
  cases op with
  | installWatch t => exact hs.installWatch t
  | uninstallWatch i => exact hs.uninstallWatch i
  | inject utcTime m => exact hs.inject utcTime m
  | cleanup utcTime => exact ⟨hs.filters, hs.watches, hs.topics⟩

/-- A watch that receives a hash is changed by it. -/
theorem received_ne (h : H256) (w : ClientWatch) : received h w ≠ w := by
  intro heq
  have hlen := congrArg (fun w => w.changes.length) heq
  simp [received] at hlen

/-- A watch is installed rightly exactly if its number is free, and there is room for its filter. -/
theorem installWatch_right_iff (hs : s.Basic sha3) (hc : s.Consistent) (t : List Topic) :
    Right sha3 s (.installWatch t) ↔ Allowed sha3 s (.installWatch t) := by
  constructor
  · rintro ⟨hc', n, w, f, hn, hw, hf, hfilter⟩
    have hroom : s.m_bloom.Room (TopicFilter.ofTopics sha3 t).exportBloom := by
      by_contra hfull
      rw [installWatch_of_full hfull] at hn
      cases hn
    have hnext : (next sha3 s (.installWatch t)) = _ := congrArg Prod.snd (installWatch_of_room hroom)
    rw [hnext] at hc'
    rw [installWatch_of_room hroom] at hn hw hf
    cases hn
    dsimp only at hw hf
    rw [Assoc.find_set, if_pos rfl] at hw
    cases hw
    have hcounted : ∀ k g, (addFilter s.m_filters (filterHash sha3 t) (installed sha3 t)).find k = some g →
        g.refCount = (s.m_watches.set s.newId { id := filterHash sha3 t }).uses fun w => w.id == k :=
      fun k g hg => (hc'.counted k g hg).2
    have hcount := hcounted (filterHash sha3 t) f hf
    have husers := users_set s s.newId (filterHash sha3 t)
    have hfit : ∀ g, s.m_filters.find (filterHash sha3 t) = some g → f.refCount = (g.refCount + 1) % 2 ^ 32 ∧ f.filter = g.filter := by
      intro g hg
      rw [find_addFilter, if_pos rfl, hg, Option.some.injEq] at hf
      subst hf
      exact ⟨rfl, rfl⟩
    have hfree : s.m_watches.find s.newId = none := by
      by_contra hsome
      obtain ⟨w, hw⟩ := Option.ne_none_iff_exists'.mp hsome
      obtain ⟨g, hg⟩ := hc.watched _ w hw
      have hgc := (hc.counted _ g hg).2
      have h1 := husers w.id
      simp only [Assoc.usesAt, hw, Option.elim_some, beq_self_eq_true, Bool.toNat_true] at h1
      by_cases hid : filterHash sha3 t = w.id
      · rw [if_pos hid] at h1
        rw [← hid] at hg h1 hgc
        have hlt := (hs.topics _ g hg).2
        have := (hfit g hg).1
        omega
      · rw [if_neg hid] at h1
        have := hcounted w.id g (by rw [find_addFilter, if_neg (Ne.symm hid), hg])
        omega
    refine ⟨hfree, hroom, fun g hg => ?_⟩
    have h1 := husers (filterHash sha3 t)
    rw [Assoc.usesAt, hfree, Option.elim_none, if_pos rfl, Nat.add_zero] at h1
    have h2 := (hc.counted _ g hg).2
    obtain ⟨h3, h4⟩ := hfit g hg
    exact ⟨h4 ▸ hfilter, by omega⟩
  · rintro ⟨hfree, hroom, hknown⟩
    refine ⟨hc.installWatch hs hfree hroom hknown, ?_⟩
    obtain ⟨f, hf, hfilter, -⟩ := find_added hknown
    dsimp only
    rw [installWatch_of_room hroom]
    exact ⟨_, { id := filterHash sha3 t }, f, rfl, by rw [Assoc.find_set, if_pos rfl], hf, hfilter⟩

/-- A message that is not seen is delivered rightly exactly if it is let through, or no watch wants it. -/
theorem inject_right_iff (hs : s.Basic sha3) (hc : s.Consistent) (utcTime : Nat) (m : Envelope) :
    Right sha3 s (.inject utcTime m) ↔ Allowed sha3 s (.inject utcTime m) := by
  have hconsistent := hc.inject hs utcTime m
  have hgate : s.Named m ∨ m.matchesBloomFilter s.m_bloom.bits = true ↔ m.matchesBloomFilter s.m_bloom.bits = true :=
    or_iff_right_of_imp (gate_of_named hs hc)
  -- a host that adds nothing is right exactly if no watch wants the message
  have hnothing : (∀ i, s.m_watches.find i = (s.m_watches.find i).map fun w => if s.Matches m w then received (m.sha3 sha3) w else w) ↔
      ¬ ∃ i w, s.m_watches.find i = some w ∧ s.Matches m w := by
    constructor
    · rintro hall ⟨i, w, hw, hmatch⟩
      have h1 := hall i
      rw [hw, Option.map_some, if_pos hmatch, Option.some.injEq] at h1
      exact received_ne _ w h1.symm
    · intro hnone i
      cases hw : s.m_watches.find i with
      | none => rfl
      | some w => rw [Option.map_some, if_neg fun hmatch => hnone ⟨i, w, hw, hmatch⟩]
  refine (and_iff_right hconsistent).trans (forall_congr' fun hnew => ?_)
  cases hm : m.isExpired utcTime with
  | true =>
    rw [inject_of_expired hm, hnothing]
    simp
  | false =>
    rw [inject_of_new hm hnew, hgate]
    simp only [find_deliver hs]
    cases hbloom : m.matchesBloomFilter s.m_bloom.bits with
    | true => simp
    | false =>
      simp only [Bool.false_eq_true, false_and, if_false, Option.map_id', and_false, imp_false]
      exact hnothing

/-- A call does what it is for exactly if it is allowed. -/
theorem right_iff (hs : s.Basic sha3) (hc : s.Consistent) (op : HostOp) : op.Right sha3 s ↔ op.Allowed sha3 s := by
  cases op with
  | installWatch t => exact installWatch_right_iff hs hc t
  | uninstallWatch i => exact iff_of_true ⟨hc.uninstallWatch hs i, trivial⟩ trivial
  | inject utcTime m => exact inject_right_iff hs hc utcTime m
  | cleanup utcTime => exact iff_of_true ⟨⟨hc.watched, hc.counted, hc.counters, hc.union⟩, trivial⟩ trivial

end HostOp

end Shh

end Webthree
