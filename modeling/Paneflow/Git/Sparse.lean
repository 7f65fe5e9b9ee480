import Mathlib.Tactic

/-!
# The entries that a sparse checkout skips

`clear_present_skip_worktree` of sparse.rs: the entries of the index that are skipped, although their file is there, are
no longer skipped. A directory that is missing is remembered, and the entries in it are not looked up.

* `shallowestMissingParent_spec`: what is remembered is a directory that is missing, with its slash.
* `clearPresentSkipWorktree_eq`: so what the walk does to an entry is what the check of that entry alone does.
-/

namespace Paneflow.Git.Sparse

/-- The bytes of a path. -/
abbrev Path := List UInt8

def slash : UInt8 := 47

/-- `Flags` of an entry, with the bits that git gives them -/
abbrev Flags := BitVec 32

def Flags.skipWorktree : Flags := 1#32 <<< 30

def Flags.contains (flags other : Flags) : Bool := flags &&& other == other

def Flags.remove (flags other : Flags) : Flags := flags &&& ~~~other

/-- An entry of the index. The walk reads neither its stat nor its object nor its mode, which `rest` stands for. -/
structure Entry (α : Type) where
  flags : Flags
  path : Path
  rest : α
  deriving DecidableEq, Repr

/-- The last slash before `stop`. -/
def rfindSlash (path : Path) : (stop : ℕ) → Option ℕ
  | 0 => none
  | stop + 1 => if path[stop]? = some slash then some stop else rfindSlash path stop

section
variable (present : Path → Bool)

/-- The loop of `shallowest_missing_parent`, `none` if `fuel` rounds do not end it. -/
def missingParent (path : Path) : (fuel stop : ℕ) → (missing : Option Path) → Option (Option Path)
  | 0, _, _ => none
  | fuel + 1, stop, missing =>
    match rfindSlash path stop with
    | none => some missing
    | some i =>
      if present (path.take i) then some missing
      else missingParent path fuel i (some (path.take (i + 1)))

def shallowestMissingParent (path : Path) : Option (Option Path) :=
  missingParent present path (path.length + 1) path.length none

/-- The body of the loop of `clear_present_skip_worktree`. -/
def clearEntry {α : Type} (missingDir : Option Path) (entry : Entry α) : Option (Option Path × Entry α) :=
  if entry.flags.contains Flags.skipWorktree = false then some (missingDir, entry)
  else if missingDir.any (·.isPrefixOf entry.path) then some (missingDir, entry)
  else if present entry.path then
    some (missingDir, { entry with flags := entry.flags.remove Flags.skipWorktree })
  else (shallowestMissingParent present entry.path).map fun missing => (missing, entry)

def clearEntries {α : Type} : Option Path → List (Entry α) → Option (List (Entry α))
  | _, [] => some []
  | missingDir, entry :: entries => do
    let (missingDir, entry) ← clearEntry present missingDir entry
    return entry :: (← clearEntries missingDir entries)

def clearPresentSkipWorktree {α : Type} (entries : List (Entry α)) : Option (List (Entry α)) :=
  clearEntries present none entries

/-- The check of one entry alone. -/
def clearAlone {α : Type} (entry : Entry α) : Entry α :=
  if entry.flags.contains Flags.skipWorktree ∧ present entry.path then
    { entry with flags := entry.flags.remove Flags.skipWorktree }
  else entry

end

/-! ### What is remembered -/

theorem rfindSlash_eq_some {path : Path} : ∀ {stop i : ℕ}, rfindSlash path stop = some i →
    i < stop ∧ path[i]? = some slash
  | stop + 1, i, h => by
    rw [rfindSlash] at h
    split_ifs at h with hslash
    · obtain rfl := Option.some.inj h
      exact ⟨Nat.lt_succ_self _, hslash⟩
    · obtain ⟨hlt, hi⟩ := rfindSlash_eq_some h
      exact ⟨Nat.lt_succ_of_lt hlt, hi⟩

section
variable {present : Path → Bool}

/-- A directory that is missing, with the slash after its name. -/
def IsMissingDir (present : Path → Bool) (dir : Path) : Prop :=
  ∃ name, dir = name ++ [slash] ∧ present name = false

/-- The search ends, since each round starts further left. -/
theorem missingParent_spec {path : Path} : ∀ {fuel stop : ℕ} {missing : Option Path}, stop < fuel →
    (∀ dir ∈ missing, IsMissingDir present dir) →
      ∃ result, missingParent present path fuel stop missing = some result ∧
        ∀ dir ∈ result, IsMissingDir present dir
  | fuel + 1, stop, missing, hfuel, hmissing => by
    rw [missingParent]
    cases hfind : rfindSlash path stop with
    | none => exact ⟨missing, rfl, hmissing⟩
    | some i =>
      obtain ⟨hlt, hslash⟩ := rfindSlash_eq_some hfind
      dsimp only
      split_ifs with hpresent
      · exact ⟨missing, rfl, hmissing⟩
      · refine missingParent_spec (by omega) fun dir hdir => ?_
        obtain rfl : path.take (i + 1) = dir := Option.some.inj hdir
        refine ⟨path.take i, ?_, Bool.eq_false_iff.mpr hpresent⟩
        rw [List.take_add_one, hslash]
        rfl

/-- **`shallowest_missing_parent` ends**, with a directory that is missing if with any. -/
theorem shallowestMissingParent_spec (present : Path → Bool) (path : Path) :
    ∃ result, shallowestMissingParent present path = some result ∧ ∀ dir ∈ result, IsMissingDir present dir :=
  missingParent_spec (Nat.lt_succ_self _) fun _ hdir => nomatch hdir

/-! ### The walk -/

section
variable (hparents : ∀ dir rest, present (dir ++ slash :: rest) = true → present dir = true)
include hparents

/-- Nothing is present in a directory that is missing. -/
theorem IsMissingDir.not_present {dir path : Path} (h : IsMissingDir present dir)
    (hbelow : dir.isPrefixOf path = true) : present path = false := by
  obtain ⟨name, rfl, hname⟩ := h
  obtain ⟨rest, rfl⟩ := List.isPrefixOf_iff_prefix.mp hbelow
  rw [List.append_assoc]
  exact Bool.eq_false_iff.mpr fun h => Bool.eq_false_iff.mp hname (hparents name rest h)

/-- One entry: what is remembered stays a missing directory, and the entry is cleared as it is alone. -/
theorem clearEntry_spec {α : Type} {missingDir : Option Path} (hmissing : ∀ dir ∈ missingDir, IsMissingDir present dir)
    (entry : Entry α) : ∃ missingDir', clearEntry present missingDir entry = some (missingDir', clearAlone present entry) ∧
      ∀ dir ∈ missingDir', IsMissingDir present dir := by
  unfold clearEntry
  split_ifs with hflag hskip hpresent
  · exact ⟨missingDir, by simp [clearAlone, hflag], hmissing⟩
  · obtain ⟨dir, hdir, hbelow⟩ := (Option.any_eq_true _ _).mp hskip
    have habsent := (hmissing dir hdir).not_present hparents hbelow
    exact ⟨missingDir, by simp [clearAlone, habsent], hmissing⟩
  · exact ⟨missingDir, by simp [clearAlone, hflag, hpresent], hmissing⟩
  · obtain ⟨result, hresult, hmissing'⟩ := shallowestMissingParent_spec present entry.path
    exact ⟨result, by simp [clearAlone, hresult, hpresent], hmissing'⟩

theorem clearEntries_eq {α : Type} : ∀ {missingDir : Option Path} (entries : List (Entry α)),
    (∀ dir ∈ missingDir, IsMissingDir present dir) →
      clearEntries present missingDir entries = some (entries.map (clearAlone present))
  | _, [], _ => rfl
  | missingDir, entry :: entries, hmissing => by
    obtain ⟨missingDir', hentry, hmissing'⟩ := clearEntry_spec hparents hmissing entry
    rw [clearEntries, hentry]
    simp only [Option.bind_eq_bind, Option.bind_some, clearEntries_eq entries hmissing']
    rfl

end

/-- **The walk is the check of each entry alone**, whatever the entries and their order: of every entry that is skipped
and whose path is present the flag is removed, and every other entry stays as it is. Each search for a missing parent
ends. -/
theorem clearPresentSkipWorktree_eq {α : Type} (present : Path → Bool)
    (hparents : ∀ dir rest, present (dir ++ slash :: rest) = true → present dir = true) (entries : List (Entry α)) :
    clearPresentSkipWorktree present entries =
        some (entries.map fun entry =>
          if entry.flags.contains Flags.skipWorktree ∧ present entry.path then
            { entry with flags := entry.flags.remove Flags.skipWorktree }
          else entry) ∧
      ∀ path, ∃ missing, shallowestMissingParent present path = some missing := by
  refine ⟨clearEntries_eq hparents entries fun _ hdir => (nomatch hdir), fun path => ?_⟩
  obtain ⟨missing, h, -⟩ := shallowestMissingParent_spec present path
  exact ⟨missing, h⟩

/-- Of `bb/x`, `bb/y` and `b/c` only the last is there. -/
theorem clearPresentSkipWorktree_eq_sibling :
    clearPresentSkipWorktree (fun path => path.isPrefixOf [98, 47, 99])
        [⟨Flags.skipWorktree, [98, 98, 47, 120], ()⟩, ⟨Flags.skipWorktree, [98, 98, 47, 121], ()⟩,
          ⟨Flags.skipWorktree, [98, 47, 99], ()⟩] =
      some [⟨Flags.skipWorktree, [98, 98, 47, 120], ()⟩, ⟨Flags.skipWorktree, [98, 98, 47, 121], ()⟩,
        ⟨0, [98, 47, 99], ()⟩] := by
  rw [(clearPresentSkipWorktree_eq (fun path => path.isPrefixOf [98, 47, 99]) (fun dir rest h => ?_) _).1]
  · decide
  · exact List.isPrefixOf_iff_prefix.mpr ((List.prefix_append _ _).trans <| List.isPrefixOf_iff_prefix.mp h)

end

end Paneflow.Git.Sparse
