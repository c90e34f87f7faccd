import FrenzyKV.Db.DbLocal

namespace FrenzyKV

def File.Above (f g : File) : Prop :=
  f.level < g.level ∨ f.level = g.level ∧ g.lastWriteTime < f.lastWriteTime

section Inputs

variable {φ : Type} (view : FileView φ) (v : Version φ) (l : Nat) (inputs : List φ)

/-- A file of level `l + 1` that stays out of the inputs has a newer version of the key. -/
def LeavesNewer (x : KvEntry) : Prop :=
  ∃ g ∈ v, view.level g = l + 1 ∧ g ∉ inputs ∧
    ∃ y ∈ view.entries g, y.userKey = x.userKey ∧ x.seq < y.seq

/-- A version that is taken from level `l + 1`, while a file left there has a newer version
of its key, is merged with a version from level `l`. -/
def PullSafe : Prop :=
  ∀ p ∈ inputs, view.level p = l + 1 → ∀ x ∈ view.entries p, LeavesNewer view v l inputs x →
    ∃ c ∈ inputs, view.level c = l ∧ ∃ z ∈ view.entries c, z.userKey = x.userKey

variable [DecidableEq φ]

instance (x : KvEntry) : Decidable (LeavesNewer view v l inputs x) :=
  inferInstanceAs (Decidable (∃ g ∈ v, view.level g = l + 1 ∧ g ∉ inputs ∧
    ∃ y ∈ view.entries g, y.userKey = x.userKey ∧ x.seq < y.seq))

instance : Decidable (PullSafe view v l inputs) :=
  inferInstanceAs (Decidable (∀ p ∈ inputs, view.level p = l + 1 → ∀ x ∈ view.entries p,
    LeavesNewer view v l inputs x →
      ∃ c ∈ inputs, view.level c = l ∧ ∃ z ∈ view.entries c, z.userKey = x.userKey))

end Inputs

section NewTables

variable {deps : KvdbDeps} {level clock : Nat} {ts : List Sstable}

theorem key_unique_of_ascending (ascending : (ts.flatMap Sstable.entries).Pairwise (·.key < ·.key))
    {x y : KvEntry} (hx : x ∈ tablesContents ts) (hy : y ∈ tablesContents ts)
    (same : x.key = y.key) : x = y := by
  by_contra ne
  have symm : Std.Symm fun x y : KvEntry => x.key ≠ y.key := ⟨fun _ _ h => h.symm⟩
  have distinct : (ts.flatMap Sstable.entries).Pairwise (·.key ≠ ·.key) :=
    ascending.imp fun lt => lt.ne
  exact List.Pairwise.forall distinct (mem_tablesContents_iff.mp hx)
    (mem_tablesContents_iff.mp hy) ne same

/-- Of two files that one builder filled, the younger one has the larger keys. -/
theorem createFiles_newer (ascending : (ts.flatMap Sstable.entries).Pairwise (·.key < ·.key))
    {f g : File} (hg : g ∈ createFiles deps level clock ts)
    (hf : f ∈ createFiles deps level clock ts) (younger : g.lastWriteTime < f.lastWriteTime) :
    Newer f.contents g.contents := by
  let R : File → File → Prop := fun g f =>
    (g.lastWriteTime < f.lastWriteTime → Newer f.contents g.contents) ∧
      (f.lastWriteTime < g.lastWriteTime → Newer g.contents f.contents)
  have pairs : (createFiles deps level clock ts).Pairwise R := by
    have tables := @createFiles_pairwise deps level clock _ _ (List.pairwise_flatMap.mp ascending).2
    refine (tables.and createFiles_times).imp fun {g f} both => ⟨fun _ => ?_, fun lt => ?_⟩
    · intro x hx y hy same
      have lt := both.1 y hy x hx
      exact (SequencedKey.lt_iff.mp lt).elim (fun key => absurd same key.ne') And.right
    · exact absurd both.2 lt.asymm
  have symm : Std.Symm R := ⟨fun _ _ h => ⟨h.2, h.1⟩⟩
  have self : ∀ h ∈ createFiles deps level clock ts, R h h :=
    fun h _ => ⟨fun lt => absurd lt (lt_irrefl _), fun lt => absurd lt (lt_irrefl _)⟩
  exact (pairs.forall_of_forall self hg hf).1 younger

end NewTables

structure Store.Good (deps : KvdbDeps) (s : Store File) : Prop extends s.Sound deps where
  ordered : ∀ f ∈ s.current, ∀ g ∈ s.current, f.Above g → Newer f.contents g.contents
  unique : ∀ x ∈ s.current.contents, ∀ y ∈ s.current.contents, x.key = y.key → x = y

namespace Store

variable {deps : KvdbDeps} {s s' : Store File} {level : Nat} {ts : List Sstable}
  {compacted : List File}

theorem good_empty (deps : KvdbDeps) : Good deps Store.empty where
  toSound := sound_empty deps
  ordered f hf := by simp [Store.empty] at hf
  unique x hx := by
    obtain ⟨f, hf, -⟩ := hx
    simp [Store.empty] at hf

namespace Good

theorem levelOrdered (good : Good deps s) : LevelOrdered .tables s.current :=
  fun f hf g hg lt => good.ordered f hf g hg (Or.inl lt)

/-- New files are good when they fit between the levels above and below them. -/
theorem install (good : Good deps s) (wf : ∀ t ∈ ts, t.Wf deps.filterPolicy)
    (ascending : (ts.flatMap Sstable.entries).Pairwise (·.key < ·.key))
    (older : ∀ g ∈ s.current, (∀ c ∈ compacted, g.rank ≠ c.rank) → level ≤ g.level →
      Newer (tablesContents ts) g.contents)
    (newer : ∀ g ∈ s.current, (∀ c ∈ compacted, g.rank ≠ c.rank) → g.level < level →
      Newer g.contents (tablesContents ts))
    (unique : ∀ x ∈ tablesContents ts, ∀ y ∈ s.current.contents, x.key = y.key → x = y) :
    Good deps (s.install deps level ts compacted) := by
  let files := createFiles deps level s.created ts
  have inTables : ∀ f ∈ files, f.contents ⊆ tablesContents ts :=
    fun f hf e he => ⟨f.table, (mem_createFiles hf).2.1, he⟩
  refine ⟨good.toSound.install wf, ?_, ?_⟩
  · intro f hf g hg above
    cases good.mem_install hf with
    | inl newF =>
      obtain ⟨levelF, -, -, lowF, -⟩ := mem_createFiles newF
      cases good.mem_install hg with
      | inl newG =>
        -- two new files: the younger one has the larger keys
        obtain ⟨levelG, -, -, -, -⟩ := mem_createFiles newG
        have younger : g.lastWriteTime < f.lastWriteTime := by
          cases above with
          | inl lt => omega
          | inr same => exact same.2
        exact createFiles_newer ascending newG newF younger
      | inr oldG =>
        have below : level ≤ g.level := by
          cases above with
          | inl lt => omega
          | inr same => omega
        exact (older g oldG.1 oldG.2 below).mono (inTables f newF) subset_rfl
    | inr oldF =>
      cases good.mem_install hg with
      | inl newG =>
        obtain ⟨levelG, -, -, lowG, -⟩ := mem_createFiles newG
        have past := (good.named f oldF.1).2
        have higher : f.level < level := by
          cases above with
          | inl lt => omega
          | inr same => omega
        exact (newer f oldF.1 oldF.2 higher).mono subset_rfl (inTables g newG)
      | inr oldG => exact good.ordered f oldF.1 g oldG.1 above
  · intro x hx y hy same
    cases Store.install_contents_subset hx with
    | inl newX =>
      cases Store.install_contents_subset hy with
      | inl newY => exact key_unique_of_ascending ascending newX newY same
      | inr oldY => exact unique x newX y oldY same
    | inr oldX =>
      cases Store.install_contents_subset hy with
      | inl newY => exact (unique y newY x oldX same.symm).symm
      | inr oldY => exact good.unique x oldX y oldY same

/-- A flush adds files that are newer than all others. -/
theorem flush {m : Memtable} (good : Good deps s) (fresh : Newer m.contents s.current.contents)
    (done : flushToDisk deps s m = some s') : Good deps s' := by
  obtain ⟨ts, flushed, rfl⟩ := Option.map_eq_some_iff.mp done
  obtain ⟨wf, all⟩ := flushTables_spec flushed
  have origin : ∀ e ∈ tablesContents ts, ∃ x ∈ m.contents, x.key = e.key := by
    intro e he
    rw [mem_tablesContents_iff, all] at he
    obtain ⟨x, hx, rfl⟩ := List.mem_map.mp he
    exact ⟨x, hx, rfl⟩
  have newer : Newer (tablesContents ts) s.current.contents := by
    intro e he y hy same
    obtain ⟨x, hx, key⟩ := origin e he
    have lt := fresh x hx y hy ((congrArg SequencedKey.userKey key).trans same)
    exact lt.trans_eq (congrArg SequencedKey.seq key)
  apply good.install wf
  · rw [all, List.pairwise_map]
    exact m.storage_ascending
  · intro g hg _ _
    exact newer.mono subset_rfl (Version.file_contents_subset hg)
  · intro g _ _ below
    omega
  · intro x hx y hy same
    have lt := newer x hx y hy (congrArg SequencedKey.userKey same)
    exact absurd (congrArg SequencedKey.seq same) lt.ne'

/-- A compaction whose next-level inputs are safe keeps the order. -/
theorem compactLevel {l : Nat} {r : ThreshRatio} {delta : VersionDelta} (good : Good deps s)
    (safe : ∀ inputs ∈ compactionInputs deps s.current l r, PullSafe .tables s.current l inputs)
    (done : compact deps s.current l r = some (ts, delta)) :
    Good deps (s.install deps (l + 1) ts delta.compacted) := by
  obtain ⟨-, -, chosen, out⟩ := compact_spec good.wf done
  have safe := safe _ chosen
  let inputs := delta.compacted
  have inVersion : ∀ i ∈ inputs, i ∈ s.current ∧ (i.level = l ∨ i.level = l + 1) :=
    fun i hi => compactionInputs_mem chosen hi
  have notInput : ∀ {g}, (∀ c ∈ inputs, g.rank ≠ c.rank) → g ∉ inputs :=
    fun free mem => free _ mem rfl
  have ascending : (ts.flatMap Sstable.entries).Pairwise (·.key < ·.key) :=
    out.apart.imp fun lt => SequencedKey.lt_iff.mpr (Or.inl lt)
  have aboveTarget : ∀ i ∈ inputs, i.level = l → ∀ g ∈ s.current, l < g.level →
      Newer i.contents g.contents := by
    intro i hi level g hg lt
    exact good.ordered i (inVersion i hi).1 g hg (Or.inl (by omega))
  apply good.install out.wf ascending
  · intro g hg free below x hx y hy same
    obtain ⟨i, hi, hxi⟩ := out.sub hx
    obtain ⟨hiv, level⟩ := inVersion i hi
    cases level with
    | inl atLevel => exact aboveTarget i hi atLevel g hg (by omega) x hxi y hy same
    | inr next =>
      by_cases deeper : i.level < g.level
      · exact good.ordered i hiv g hg (Or.inl deeper) x hxi y hy same
      · have gNext : g.level = l + 1 := by omega
        by_contra notNewer
        -- `g` cannot hold the same version, for one of the two files is the younger one
        have differ : x.seq ≠ y.seq := by
          intro eq
          have times : i.lastWriteTime ≠ g.lastWriteTime := fun eq =>
            notInput free (good.eq_of_time hiv hg eq ▸ hi)
          rcases Nat.lt_or_gt_of_ne times with lt | gt
          · have := good.ordered g hg i hiv (Or.inr ⟨by omega, lt⟩) y hy x hxi same.symm
            omega
          · have := good.ordered i hiv g hg (Or.inr ⟨by omega, gt⟩) x hxi y hy same
            omega
        obtain ⟨c, hc, cLevel, z, hz, zKey⟩ := safe i hi next x hxi
          ⟨g, hg, gNext, notInput free, y, hy, same.symm, by omega⟩
        -- `x` stands for its key in the output, so it is at least as new as `z`
        obtain ⟨w, hw, wKey, wSeq⟩ := out.cover z ⟨c, hc, hz⟩
        obtain rfl := out.single w hw x hx (wKey.trans zKey)
        have := aboveTarget c hc cLevel g hg (by omega) z hz y hy (zKey.trans same)
        omega
  · intro g hg free above y hy x hx same
    obtain ⟨i, hi, hxi⟩ := out.sub hx
    obtain ⟨hiv, level⟩ := inVersion i hi
    by_cases shallower : g.level < i.level
    · exact good.ordered g hg i hiv (Or.inl shallower) y hy x hxi same
    · -- a file of level `l` that stays is younger than the inputs from that level
      have oldest := compactionInputs_oldest chosen hi (by omega) hg (by omega) (notInput free)
      have times : i.lastWriteTime ≠ g.lastWriteTime := fun eq =>
        notInput free (good.eq_of_time hiv hg eq ▸ hi)
      exact good.ordered g hg i hiv (Or.inr ⟨by omega, by omega⟩) y hy x hxi same
  · intro x hx y hy same
    obtain ⟨i, hi, hxi⟩ := out.sub hx
    exact good.unique x ⟨i, (inVersion i hi).1, hxi⟩ y hy same

theorem mayCompact {from_ : Nat} {r : ThreshRatio} (good : Good deps s)
    (safe : ∀ l ∈ levelToCompact deps s.current from_ r,
      ∀ inputs ∈ compactionInputs deps s.current l r, PullSafe .tables s.current l inputs)
    (done : FrenzyKV.mayCompact deps s from_ r = some s') : Good deps s' := by
  rcases mayCompact_cases done with rfl | ⟨l, ts, delta, chosen, compacted, rfl⟩
  · exact good
  · exact good.compactLevel (safe l chosen) compacted

/-- In a good store the level search answers like a search of all files. -/
theorem findFromSsts_eq (good : Good deps s) (replace : Bool) {k : SequencedKey}
    (top : ∀ x ∈ s.current.contents, x.userKey = k.userKey → x.seq ≤ k.seq) :
    findFromSsts deps.filterPolicy replace s.current k = newestOfAllFiles .tables s.current k.userKey := by
  obtain ⟨hit, miss⟩ := @findFromSsts_spec _ replace _ _ good.wf good.levelOrdered top
  cases found : findFromSsts deps.filterPolicy replace s.current k with
  | none =>
    have absent := miss found
    cases all : newestOfAllFiles .tables s.current k.userKey with
    | none => rfl
    | some e =>
      obtain ⟨mem, key, -⟩ := newestOfAllFiles_eq_some all
      exact absurd key (absent e mem)
  | some e =>
    have newest := hit e found
    cases all : newestOfAllFiles .tables s.current k.userKey with
    | none => exact absurd newest.2.1 (newestOfAllFiles_eq_none all e newest.1)
    | some e' =>
      have newest' := newestOfAllFiles_eq_some all
      have sameKey : e.key = e'.key :=
        KvEntry.key_eq (newest.2.1.trans newest'.2.1.symm) (newest.seq_eq newest')
      rw [good.unique e newest.1 e' newest'.1 sameKey]

end Good

end Store

end FrenzyKV
