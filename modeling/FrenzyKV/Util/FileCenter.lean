import FrenzyKV.Db.VersionDescriptor
import FrenzyKV.Framework.RefCount

/-! File guards and the table of files they refer to (`util/file_center.cc`,
`util/file_guard.h`). -/

namespace FrenzyKV

open Framework RefCount

/-- `m_reps` and `m_name_rep`. A file stands for its name and for what is written under it;
addresses are never used twice. -/
structure FileCenter where
  reps : List (Cell File)
  nameRep : List (File × Nat)
  allocated : Nat

/-- What a guard refers to; a null guard has no file. -/
def fileOf (reps : List (Cell File)) (g : Guard) : File := ((find? reps g).map (·.val)).getD default

def names (reps : List (Cell File)) (gs : List Guard) : List File := gs.map (fileOf reps)

section FileOf

variable {cells cells' : List (Cell File)} {g : Guard} {c : Cell File}

theorem fileOf_identity (cells : List (Cell File)) (g : Guard) :
    fileOf cells g =
      (((cells.map Cell.identity).find? fun p => g = some p.1).map (·.2)).getD default := by
  rw [List.find?_map, Option.map_map]
  rfl

theorem fileOf_of_identity (same : cells'.map Cell.identity = cells.map Cell.identity) :
    fileOf cells' g = fileOf cells g := by
  rw [fileOf_identity, fileOf_identity, same]

@[simp] theorem fileOf_null : fileOf cells none = default := by
  have none : find? cells none = none := List.find?_eq_none.mpr (by simp)
  rw [fileOf, none]
  rfl

theorem names_of_identity (same : cells'.map Cell.identity = cells.map Cell.identity)
    (gs : List Guard) : names cells' gs = names cells gs :=
  List.map_congr_left fun _ _ => fileOf_of_identity same

theorem fileOf_address (distinct : cells.Pairwise (·.address ≠ ·.address)) (hc : c ∈ cells) :
    fileOf cells (some c.address) = c.val := by
  rw [fileOf, find?_address distinct hc]
  rfl

end FileOf

namespace FileCenter

def empty : FileCenter := ⟨[], [], 0⟩

/-- A new `file_rep` under a name; the latest entry of the map counts. -/
def emplace (fc : FileCenter) (name : File) : FileCenter where
  reps := fc.reps ++ [⟨fc.allocated, 0, name⟩]
  nameRep := (name, fc.allocated) :: fc.nameRep
  allocated := fc.allocated + 1

/-- `file_center::load_files`. -/
def loadFiles (sstables : List File) : FileCenter := sstables.foldl emplace empty

/-- `file_center::get_file`. -/
def getFile (fc : FileCenter) (name : File) : FileCenter × Guard :=
  match fc.nameRep.lookup name with
  | some a => ({ fc with reps := ref fc.reps (some a) }, some a)
  | none =>
    let made := fc.emplace name
    ({ made with reps := ref made.reps (some fc.allocated) }, some fc.allocated)

/-- The loop of `get_version`. -/
def getFiles (fc : FileCenter) : List File → FileCenter × List Guard
  | [] => (fc, [])
  | name :: rest =>
    let first := fc.getFile name
    let others := first.1.getFiles rest
    (others.1, first.2 :: others.2)

/-- One round of the loop in `file_center::GC`; the rep itself goes when the loop is over. -/
def eraseName (fc : FileCenter) (name : File) : FileCenter :=
  { fc with nameRep := fc.nameRep.filter (·.1 ≠ name) }

/-- The reps have names of their own and the map leads to all of them but those whose name
a running collection has taken out. -/
structure Coherent (fc : FileCenter) (gone : List Nat) : Prop where
  allocated : ∀ c ∈ fc.reps, c.address < fc.allocated
  distinct : fc.reps.Pairwise (·.val ≠ ·.val)
  mapped : ∀ c ∈ fc.reps, c.address ∉ gone → fc.nameRep.lookup c.val = some c.address
  erased : ∀ c ∈ fc.reps, c.address ∈ gone → fc.nameRep.lookup c.val = none
  points : ∀ name a, fc.nameRep.lookup name = some a → ∃ c ∈ fc.reps, c.address = a ∧ c.val = name

section Coherent

variable {fc : FileCenter} {gone : List Nat} {gs : List Guard} {name : File}

theorem coherent_empty : empty.Coherent [] := by
  constructor <;> simp [empty]

theorem Coherent.eq_of_val (coherent : fc.Coherent gone) {c d : Cell File} (hc : c ∈ fc.reps)
    (hd : d ∈ fc.reps) (same : c.val = d.val) : c = d :=
  eq_of_pairwise_ne coherent.distinct hc hd same

/-- Counting guards in and out changes nothing. -/
theorem Coherent.of_identity (coherent : fc.Coherent gone) {reps : List (Cell File)}
    (same : reps.map Cell.identity = fc.reps.map Cell.identity) :
    Coherent { fc with reps } gone where
  allocated c hc := by
    obtain ⟨d, hd, address, -⟩ := mem_of_identity same hc
    exact address ▸ coherent.allocated d hd
  distinct := by
    have vals := map_of_identity (fun _ v => v) same
    have nodup : (fc.reps.map fun c => c.val).Pairwise (· ≠ ·) :=
      List.pairwise_map.mpr coherent.distinct
    rw [← vals] at nodup
    exact List.pairwise_map.mp nodup
  mapped c hc kept := by
    obtain ⟨d, hd, address, val⟩ := mem_of_identity same hc
    rw [← address] at kept ⊢
    exact val ▸ coherent.mapped d hd kept
  erased c hc out := by
    obtain ⟨d, hd, address, val⟩ := mem_of_identity same hc
    exact val ▸ coherent.erased d hd (address ▸ out)
  points name a found := by
    obtain ⟨d, hd, address, val⟩ := coherent.points name a found
    obtain ⟨c, hc, address', val'⟩ := mem_of_identity same.symm hd
    exact ⟨c, hc, address'.trans address, val'.trans val⟩

theorem Coherent.emplace (coherent : fc.Coherent []) (fresh : ∀ c ∈ fc.reps, c.val ≠ name) :
    (fc.emplace name).Coherent [] where
  allocated c hc := by
    cases List.mem_append.mp hc with
    | inl old => exact (coherent.allocated c old).trans (Nat.lt_succ_self _)
    | inr new =>
      obtain rfl := List.mem_singleton.mp new
      exact Nat.lt_succ_self _
  distinct := by
    refine List.pairwise_append.mpr ⟨coherent.distinct, List.pairwise_singleton _ _, ?_⟩
    intro c hc d hd
    obtain rfl := List.mem_singleton.mp hd
    exact fresh c hc
  mapped c hc _ := by
    rw [FileCenter.emplace, List.lookup_cons]
    cases List.mem_append.mp hc with
    | inl old =>
      have other : (c.val == name) = false := by simpa using fresh c old
      rw [other]
      exact coherent.mapped c old (by simp)
    | inr new =>
      obtain rfl := List.mem_singleton.mp new
      simp
  erased c hc out := by simp at out
  points other a found := by
    rw [FileCenter.emplace, List.lookup_cons] at found
    split at found
    · rename_i same
      exact ⟨_, List.mem_append_right _ (List.mem_singleton.mpr rfl), Option.some.inj found,
        (beq_iff_eq.mp same).symm⟩
    · obtain ⟨c, hc, rest⟩ := coherent.points other a found
      exact ⟨c, List.mem_append_left _ hc, rest⟩

theorem Coherent.fresh_of_lookup (coherent : fc.Coherent [])
    (missing : fc.nameRep.lookup name = none) : ∀ c ∈ fc.reps, c.val ≠ name := by
  rintro c hc rfl
  rw [coherent.mapped c hc (by simp)] at missing
  simp at missing

theorem loadFiles_spec {sstables : List File} (nodup : sstables.Nodup) :
    (loadFiles sstables).Coherent [] ∧ Exact (loadFiles sstables).reps [] := by
  suffices ∀ fc : FileCenter, fc.Coherent [] → Exact fc.reps [] →
      (∀ f ∈ sstables, ∀ c ∈ fc.reps, c.val ≠ f) →
      (sstables.foldl emplace fc).Coherent [] ∧ Exact (sstables.foldl emplace fc).reps [] from
    this empty coherent_empty ⟨List.Pairwise.nil, by simp [empty], by simp⟩ (by simp [empty])
  induction sstables with
  | nil => exact fun fc coherent exact _ => ⟨coherent, exact⟩
  | cons f rest ih =>
    intro fc coherent exact fresh
    obtain ⟨notIn, nodup⟩ := List.nodup_cons.mp nodup
    have alloc := exact.alloc f fun c hc => (coherent.allocated c hc).ne
    apply ih nodup (fc.emplace f) (coherent.emplace (fresh f List.mem_cons_self)) alloc
    intro g hg c hc
    cases List.mem_append.mp hc with
    | inl old => exact fresh g (List.mem_cons_of_mem _ hg) c old
    | inr added =>
      obtain rfl := List.mem_singleton.mp added
      rintro rfl
      exact notIn hg

theorem lookup_eraseName (name other : File) :
    (fc.eraseName name).nameRep.lookup other =
      if other = name then none else fc.nameRep.lookup other :=
  lookup_filter_ne _ _ _

theorem Coherent.eraseName (coherent : fc.Coherent gone)
    (addresses : fc.reps.Pairwise (·.address ≠ ·.address)) {c : Cell File} (hc : c ∈ fc.reps) :
    (fc.eraseName c.val).Coherent (gone ++ [c.address]) where
  allocated := coherent.allocated
  distinct := coherent.distinct
  mapped d hd kept := by
    have out : d.address ∉ gone ∧ d.address ≠ c.address := by simpa using kept
    rw [lookup_eraseName, if_neg]
    · exact coherent.mapped d hd out.1
    · exact fun same => out.2 (congrArg Cell.address (coherent.eq_of_val hd hc same))
  erased d hd out := by
    rw [lookup_eraseName]
    split
    · rfl
    · rename_i other
      cases List.mem_append.mp out with
      | inl before => exact coherent.erased d hd before
      | inr now =>
        have same := eq_of_address addresses hd hc (List.mem_singleton.mp now)
        exact absurd (congrArg Cell.val same) other
  points name a found := by
    rw [lookup_eraseName] at found
    split at found
    · simp at found
    · exact coherent.points name a found

/-- Erasing the reps whose names are gone. -/
theorem Coherent.eraseReps (coherent : fc.Coherent gone) :
    Coherent { fc with reps := fc.reps.filter (·.address ∉ gone) } [] where
  allocated c hc := coherent.allocated c (List.mem_filter.mp hc).1
  distinct := coherent.distinct.sublist List.filter_sublist
  mapped c hc _ := by
    obtain ⟨old, kept⟩ := List.mem_filter.mp hc
    exact coherent.mapped c old (of_decide_eq_true kept)
  erased c hc out := by simp at out
  points name a found := by
    obtain ⟨c, hc, rfl, rfl⟩ := coherent.points name a found
    refine ⟨c, List.mem_filter.mpr ⟨hc, decide_eq_true fun out => ?_⟩, rfl, rfl⟩
    rw [coherent.erased c hc out] at found
    simp at found

/-- The guard that `get_file` returns. -/
theorem getFile_spec (coherent : fc.Coherent []) (exact : Exact fc.reps gs) (name : File) :
    (fc.getFile name).1.Coherent [] ∧ Exact (fc.getFile name).1.reps ((fc.getFile name).2 :: gs) ∧
      fileOf (fc.getFile name).1.reps (fc.getFile name).2 = name ∧
      ∀ a, some a ∈ gs → fileOf (fc.getFile name).1.reps (some a) = fileOf fc.reps (some a) := by
  rw [getFile]
  cases found : fc.nameRep.lookup name with
  | some a =>
    obtain ⟨c, hc, rfl, rfl⟩ := coherent.points name a found
    refine ⟨coherent.of_identity ref_identity, exact.ref ?_, ?_, fun a _ => ?_⟩
    · rintro a eq
      exact ⟨c, hc, Option.some.inj eq⟩
    · exact (fileOf_of_identity ref_identity).trans (fileOf_address exact.distinct hc)
    · exact fileOf_of_identity ref_identity
  | none =>
    have fresh := coherent.fresh_of_lookup found
    have alloc := exact.alloc name fun c hc => (coherent.allocated c hc).ne
    have new : (⟨fc.allocated, 0, name⟩ : Cell File) ∈ (fc.emplace name).reps :=
      List.mem_append_right _ (List.mem_singleton.mpr rfl)
    refine ⟨(coherent.emplace fresh).of_identity ref_identity, alloc.ref ?_, ?_, fun a mem => ?_⟩
    · rintro a eq
      exact ⟨_, new, Option.some.inj eq⟩
    · exact (fileOf_of_identity ref_identity).trans (fileOf_address alloc.distinct new)
    · obtain ⟨c, hc, rfl⟩ := exact.held a mem
      rw [fileOf_address exact.distinct hc]
      exact (fileOf_of_identity ref_identity).trans
        (fileOf_address alloc.distinct (List.mem_append_left _ hc))

/-- No rep is lost. -/
theorem kept_getFile (fc : FileCenter) (name : File) {c : Cell File} (hc : c ∈ fc.reps) :
    ∃ c' ∈ (fc.getFile name).1.reps, c'.address = c.address ∧ c'.val = c.val := by
  rw [getFile]
  split
  · exact mem_of_identity ref_identity.symm hc
  · exact mem_of_identity ref_identity.symm (List.mem_append_left _ hc)

/-- A new rep gets the next address. -/
theorem getFile_addresses (fc : FileCenter) (name : File) :
    fc.allocated ≤ (fc.getFile name).1.allocated ∧ ∀ c ∈ (fc.getFile name).1.reps,
      (∃ d ∈ fc.reps, d.address = c.address) ∨ c.address = fc.allocated := by
  rw [getFile]
  split
  · refine ⟨le_rfl, fun c hc => Or.inl ?_⟩
    obtain ⟨d, hd, eq, -⟩ := mem_of_identity ref_identity hc
    exact ⟨d, hd, eq⟩
  · refine ⟨Nat.le_succ _, fun c hc => ?_⟩
    obtain ⟨d, hd, eq, -⟩ := mem_of_identity ref_identity hc
    cases List.mem_append.mp hd with
    | inl old => exact Or.inl ⟨d, old, eq⟩
    | inr new =>
      obtain rfl := List.mem_singleton.mp new
      exact Or.inr eq.symm

theorem getFile_isSome (fc : FileCenter) (name : File) : ∃ a, (fc.getFile name).2 = some a := by
  rw [getFile]
  split
  · exact ⟨_, rfl⟩
  · exact ⟨_, rfl⟩

theorem getFiles_isSome (fc : FileCenter) (files : List File) :
    ∀ g ∈ (fc.getFiles files).2, ∃ a, g = some a := by
  induction files generalizing fc with
  | nil => simp [getFiles]
  | cons name rest ih =>
    intro g hg
    cases List.mem_cons.mp hg with
    | inl eq => exact eq ▸ getFile_isSome fc name
    | inr later => exact ih _ g later

theorem getFiles_spec (coherent : fc.Coherent []) (exact : Exact fc.reps gs) (files : List File) :
    (fc.getFiles files).1.Coherent [] ∧
      Exact (fc.getFiles files).1.reps ((fc.getFiles files).2 ++ gs) ∧
      names (fc.getFiles files).1.reps (fc.getFiles files).2 = files ∧
      ∀ a, some a ∈ gs → fileOf (fc.getFiles files).1.reps (some a) = fileOf fc.reps (some a) := by
  induction files generalizing fc gs with
  | nil => exact ⟨coherent, exact, rfl, fun a _ => rfl⟩
  | cons name rest ih =>
    obtain ⟨coherent₁, exact₁, first, same₁⟩ := getFile_spec coherent exact name
    obtain ⟨coherent₂, exact₂, others, same₂⟩ := ih coherent₁ exact₁
    refine ⟨coherent₂, exact₂.of_count fun a => ?_, ?_, fun a mem => ?_⟩
    · simp only [getFiles, List.cons_append, List.count_cons, List.count_append]
      omega
    · obtain ⟨a, eq⟩ := getFile_isSome fc name
      rw [eq] at first same₂
      refine congrArg₂ List.cons ?_ others
      rw [eq]
      exact (same₂ a List.mem_cons_self).trans first
    · exact (same₂ a (List.mem_cons_of_mem _ mem)).trans (same₁ a mem)

end Coherent

end FileCenter

end FrenzyKV
