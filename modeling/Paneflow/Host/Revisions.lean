import Paneflow.Host.PersistRun
import Mathlib.Data.Nat.Basic

/-!
# The revisions under way

`Good` is what holds of the service in every run: every revision that is held, queued or in flight was
handed out, sessions and classes are where they belong, and no revision is recorded as written that was
not handed out. `move_outstanding` says what a move does to the revisions under way.
-/

namespace Paneflow.Host.Revisions

open Paneflow.Host.Persistence Paneflow.Host.PersistMoves Paneflow.Host.PersistRun Paneflow.Transition

variable {S : Type} [LinearOrder S] {sessionOf : ℕ → S} {guard : Guard S} {c c' : Core S}
  {q record : ManifestRevision S}

/-- The revision that the writer is at. -/
def InFlight : Phase S → ManifestRevision S → Prop
  | .taken (.manifest record _), q => record = q
  | .writing record _, q => record = q
  | .seeding record _, q => record = q
  | .ended _ (some record), q => record = q
  | _, _ => False

/-- A revision in the queue. -/
def Waiting (c : Core S) (q : ManifestRevision S) : Prop :=
  (∃ done, .manifest q done ∈ c.ordered) ∨ q ∈ c.metadata.values ∨ q ∈ c.pendingFinal.values

/-- A revision that was handed out and is not done with. -/
def Outstanding (c : Core S) (q : ManifestRevision S) : Prop :=
  q ∈ c.held ∨ Waiting c q ∨ InFlight c.phase q

/-! ### Maps of revisions -/

section Maps
variable {m : OrdMap S (ManifestRevision S)} {s : S}

theorem mem_values_insert (h : q ∈ (m.insert s record).values) : q = record ∨ q ∈ m.values := by
  obtain ⟨k, hk⟩ := OrdMap.mem_values.1 h
  rw [OrdMap.get?_insert] at hk
  split_ifs at hk
  · exact .inl (Option.some.inj hk).symm
  · exact .inr (OrdMap.mem_values.2 ⟨k, hk⟩)

theorem mem_values_erase (h : q ∈ (m.erase s).values) : q ∈ m.values := by
  obtain ⟨k, hk⟩ := OrdMap.mem_values.1 h
  rw [OrdMap.get?_erase] at hk
  split_ifs at hk
  exact OrdMap.mem_values.2 ⟨k, hk⟩

theorem get?_retained {k : S} (h : (retained m record).get? k = some q) :
    m.get? k = some q ∨ k = record.session ∧ q = record := by
  unfold retained at h
  split_ifs at h
  · exact .inl h
  · rw [OrdMap.get?_insert] at h
    split_ifs at h with hk
    · exact .inr ⟨hk, (Option.some.inj h).symm⟩
    · exact .inl h

theorem mem_values_retained (h : q ∈ (retained m record).values) : q = record ∨ q ∈ m.values := by
  obtain ⟨k, hk⟩ := OrdMap.mem_values.1 h
  rcases get?_retained hk with hk | ⟨-, rfl⟩
  · exact .inr (OrdMap.mem_values.2 ⟨k, hk⟩)
  · exact .inl rfl

end Maps

/-! ### What a move does to them -/

/-- The queue keeps nothing that was neither in it nor held. -/
theorem move_waiting (h : Move sessionOf guard c c') (hq : Waiting c' q) : q ∈ c.held ∨ Waiting c q ∨
    InFlight c.phase q := by
  cases h with
  | push record done hheld =>
    rcases hq with ⟨d, hq⟩ | hq
    · rcases List.mem_append.1 hq with hq | hq
      · exact .inr (.inl (.inl ⟨d, hq⟩))
      · obtain ⟨rfl, -⟩ : q = record ∧ d = done := by simpa using hq
        exact .inl hheld
    · exact .inr (.inl (.inr hq))
  | replace record previous hheld hcls hprev =>
    rcases hq with hq | hq | hq
    · exact .inr (.inl (.inl hq))
    · rcases mem_values_insert hq with rfl | hq
      · exact .inl hheld
      · exact .inr (.inl (.inr (.inl (mem_values_erase hq))))
    · exact .inr (.inl (.inr (.inr hq)))
  | add record hheld =>
    rcases hq with hq | hq | hq
    · exact .inr (.inl (.inl hq))
    · rcases mem_values_insert hq with rfl | hq
      · exact .inl hheld
      · exact .inr (.inl (.inr (.inl hq)))
    · exact .inr (.inl (.inr (.inr hq)))
  | pend record hheld =>
    rcases hq with hq | hq | hq
    · exact .inr (.inl (.inl hq))
    · exact .inr (.inl (.inr (.inl hq)))
    · rcases mem_values_retained hq with rfl | hq
      · exact .inl hheld
      · exact .inr (.inl (.inr (.inr hq)))
  | enqueueRemove session state done hsession hremoved =>
    rcases hq with ⟨d, hq⟩ | hq | hq
    · exact .inr (.inl (.inl ⟨d, by simpa using hq⟩))
    · exact .inr (.inl (.inr (.inl (mem_values_erase hq))))
    · exact .inr (.inl (.inr (.inr (mem_values_erase hq))))
  | exclusive done => exact .inr (.inl (by simpa [Waiting] using hq))
  | barrier ticket => exact .inr (.inl (by simpa [Waiting] using hq))
  | requeue =>
    rcases hq with ⟨d, hq⟩ | hq | hq
    · rcases List.mem_append.1 hq with hq | hq
      · exact .inr (.inl (.inl ⟨d, hq⟩))
      · obtain ⟨r, hr, heq⟩ := List.mem_map.1 hq
        cases heq
        exact .inr (.inl (.inr (.inr hr)))
    · exact .inr (.inl (.inr (.inl hq)))
    · simp at hq
  | takeMetadata skipped order session record hphase horder hskip hrecord =>
    rcases hq with hq | hq | hq
    · exact .inr (.inl (.inl hq))
    · exact .inr (.inl (.inr (.inl (mem_values_erase hq))))
    · exact .inr (.inl (.inr (.inr hq)))
  | takeOrdered order job ordered hphase hordered horder hbarrier =>
    rcases hq with ⟨d, hq⟩ | hq
    · exact .inr (.inl (.inl ⟨d, by rw [hordered]; exact List.mem_cons_of_mem _ hq⟩))
    · exact .inr (.inl (.inr hq))
  | finish bytes kept hphase =>
    rcases hq with hq | hq | hq
    · exact .inr (.inl (.inl hq))
    · exact .inr (.inl (.inr (.inl hq)))
    · cases kept with
      | none => exact .inr (.inl (.inr (.inr hq)))
      | some record =>
        rcases mem_values_retained hq with rfl | hq
        · exact .inr (.inr (by rw [hphase]; rfl))
        · exact .inr (.inl (.inr (.inr hq)))
  | _ => exact .inr (.inl hq)

/-- The writer only takes up what was in the queue. -/
theorem move_inFlight (h : Move sessionOf guard c c') (hq : InFlight c'.phase q) :
    Waiting c q ∨ InFlight c.phase q := by
  cases h with
  | takeMetadata skipped order session record hphase horder hskip hrecord =>
    obtain rfl : record = q := hq
    exact .inl (.inr (.inl (OrdMap.mem_values.2 ⟨_, hrecord⟩)))
  | takeOrdered order job ordered hphase hordered horder hbarrier =>
    cases job with
    | manifest record done =>
      obtain rfl : record = q := hq
      exact .inl (.inl ⟨done, by rw [hordered]; exact List.mem_cons_self⟩)
    | remove => exact hq.elim
    | exclusive => exact hq.elim
    | barrier => exact hq.elim
  | start record done hphase => exact .inr (by rw [hphase]; exact hq)
  | write record done hphase => exact .inr (by rw [hphase]; exact hq)
  | failManifest record done error hphase =>
    by_cases hcls : record.cls = .final
    · exact .inr (by simpa [hphase, hcls, InFlight] using hq)
    · simp [hcls, InFlight] at hq
  | failSeed record done error hphase =>
    by_cases hcls : record.cls = .final
    · exact .inr (by simpa [hphase, hcls, InFlight] using hq)
    · simp [hcls, InFlight] at hq
  | skip => exact hq.elim
  | wrote => exact hq.elim
  | seeded => exact hq.elim
  | removeFile => exact hq.elim
  | keepFile => exact hq.elim
  | clear => exact hq.elim
  | ranExclusive => exact hq.elim
  | passed => exact hq.elim
  | finish => exact hq.elim
  | _ => exact .inr hq

/-- **Only numbering** brings a new revision. -/
theorem move_outstanding (h : Move sessionOf guard c c') (hq : Outstanding c' q) :
    Outstanding c q ∨
      q.revision = c.revision q.state + 1 ∧ q ∈ c'.numbered ∧ c'.revision q.state = q.revision := by
  rcases hq with hq | hq | hq
  · cases h with
    | number record hsession hrev =>
      rcases List.mem_cons.1 hq with rfl | hq
      · exact .inr ⟨hrev, by simp, by simp⟩
      · exact .inl (.inl hq)
    | push => exact .inl (.inl (List.mem_of_mem_erase hq))
    | replace => exact .inl (.inl (List.mem_of_mem_erase hq))
    | add => exact .inl (.inl (List.mem_of_mem_erase hq))
    | refuse => exact .inl (.inl (List.mem_of_mem_erase hq))
    | pend => exact .inl (.inl (List.mem_of_mem_erase hq))
    | _ => exact .inl (.inl hq)
  · exact .inl (move_waiting h hq)
  · exact .inl (.inr (move_inFlight h hq))

theorem le_update {f : ℕ → ℕ} {state n : ℕ} (h : f state ≤ n) (s : ℕ) :
    f s ≤ Function.update f state n s := by
  by_cases hs : s = state
  · subst hs
    simpa using h
  · simp [hs]

theorem le_update_max (f : ℕ → ℕ) (state n : ℕ) :
    n ≤ Function.update f state (max (f state) n) state := by
  rw [Function.update_self]
  exact Nat.le_max_right _ _

/-- Counters only grow, and a removed session stays removed. -/
theorem move_monotone (h : Move sessionOf guard c c') (state : ℕ) : c.revision state ≤ c'.revision state ∧
    c.written state ≤ c'.written state ∧ (c.removed state = true → c'.removed state = true) := by
  cases h with
  | number record hsession hrev => exact ⟨le_update (by omega) _, le_rfl, id⟩
  | oversized => exact ⟨le_update (Nat.le_succ _) _, le_rfl, id⟩
  | markRemoved removed =>
    refine ⟨le_rfl, le_rfl, fun h => ?_⟩
    by_cases hs : state = removed
    · simp [hs]
    · simpa [hs] using h
  | wrote => exact ⟨le_rfl, le_update (le_max_left _ _) _, id⟩
  | seeded => exact ⟨le_rfl, le_update (le_max_left _ _) _, id⟩
  | _ => exact ⟨le_rfl, le_rfl, id⟩

/-- Only the write of the revision in flight is added to the log. -/
theorem move_log (h : Move sessionOf guard c c') : c'.log = c.log ∨
    ∃ record done, c.phase = .writing record done ∧ c'.log = record :: c.log ∧
      c'.files = Function.update c.files record.session (some record) := by
  cases h with
  | write record done hphase => exact .inr ⟨record, done, hphase, rfl, rfl⟩
  | wrote record done hphase => exact .inr ⟨record, done, hphase, rfl, rfl⟩
  | _ => exact .inl rfl

theorem mem_log_mono (h : Move sessionOf guard c c') (hq : q ∈ c.log) : q ∈ c'.log := by
  rcases move_log h with heq | ⟨record, done, -, heq, -⟩
  · rwa [heq]
  · rw [heq]
    exact List.mem_cons_of_mem _ hq

/-- Handing out a number leaves the revisions handed out before as they were. -/
theorem move_numbered (h : Move sessionOf guard c c') : c'.numbered = c.numbered ∨
    ∃ record, c'.numbered = record :: c.numbered ∧ record.session = sessionOf record.state ∧
      record.revision = c.revision record.state + 1 ∧
      c'.revision record.state = record.revision := by
  cases h with
  | number record hsession hrev => exact .inr ⟨record, rfl, hsession, hrev, by simp⟩
  | _ => exact .inl rfl

theorem mem_numbered_mono (h : Move sessionOf guard c c') (hq : q ∈ c.numbered) :
    q ∈ c'.numbered := by
  rcases move_numbered h with heq | ⟨record, heq, -⟩
  · rwa [heq]
  · rw [heq]
    exact List.mem_cons_of_mem _ hq

/-! ### The invariant -/

structure Good (sessionOf : ℕ → S) (c : Core S) : Prop where
  session : ∀ q ∈ c.numbered, q.session = sessionOf q.state
  numbered : ∀ q ∈ c.numbered, 0 < q.revision ∧ q.revision ≤ c.revision q.state
  unique : ∀ q ∈ c.numbered, ∀ r ∈ c.numbered, q.state = r.state → q.revision = r.revision → q = r
  outstanding : ∀ q, Outstanding c q → q ∈ c.numbered
  log : ∀ q ∈ c.log, q ∈ c.numbered
  metadata : ∀ s q, c.metadata.get? s = some q →
    q.session = s ∧ q.cls = .metadata ∧ s ∈ c.metadataOrder
  pendingFinal : ∀ s q, c.pendingFinal.get? s = some q → q.session = s ∧ q.cls = .final
  kept : ∀ bytes q, c.phase = .ended bytes (some q) → q.cls = .final
  written : ∀ state, c.written state ≤ c.revision state

theorem Good.move_metadata (hg : Good sessionOf c) (h : Move sessionOf guard c c') {s : S} (hs : c'.metadata.get? s = some q) :
    q.session = s ∧ q.cls = .metadata ∧ s ∈ c'.metadataOrder := by
  have hold := hg.metadata s q
  cases h with
  | replace record previous hheld hcls hprev =>
    rw [OrdMap.get?_insert] at hs
    split_ifs at hs with hk
    · obtain rfl := Option.some.inj hs
      exact ⟨hk.symm, hcls, hk ▸ (hg.metadata _ _ hprev).2.2⟩
    · rw [OrdMap.get?_erase, if_neg hk] at hs
      exact hold hs
  | add record hheld hcls hnone =>
    rw [OrdMap.get?_insert] at hs
    split_ifs at hs with hk
    · obtain rfl := Option.some.inj hs
      exact ⟨hk.symm, hcls, by simp [hk]⟩
    · obtain ⟨h1, h2, h3⟩ := hold hs
      exact ⟨h1, h2, List.mem_append_left _ h3⟩
  | enqueueRemove =>
    rw [OrdMap.get?_erase] at hs
    split_ifs at hs
    exact hold hs
  | takeMetadata skipped order session record hphase horder hskip hrecord =>
    rw [OrdMap.get?_erase] at hs
    split_ifs at hs with hk
    obtain ⟨h1, h2, h3⟩ := hold hs
    rw [horder, List.mem_append, List.mem_cons] at h3
    rcases h3 with h3 | h3 | h3
    · exact absurd (hskip s h3) (by simp [hs])
    · exact absurd h3 hk
    · exact ⟨h1, h2, h3⟩
  | takeOrdered order job ordered hphase hordered horder hbarrier =>
    obtain ⟨h1, h2, h3⟩ := hold hs
    rcases horder with rfl | ⟨-, hnone⟩
    · exact ⟨h1, h2, h3⟩
    · exact absurd (hnone s h3) (by simp [show c.metadata.get? s = some q from hs])
  | rest hphase hempty =>
    obtain ⟨-, -, h3⟩ := hold hs
    exact absurd (hempty s h3) (by simp [show c.metadata.get? s = some q from hs])
  | _ => exact hold hs

theorem Good.move_pendingFinal (hg : Good sessionOf c) (h : Move sessionOf guard c c') {s : S}
    (hs : c'.pendingFinal.get? s = some q) : q.session = s ∧ q.cls = .final := by
  have hold := hg.pendingFinal s q
  cases h with
  | pend record hheld hcls =>
    rcases get?_retained hs with hs | ⟨rfl, rfl⟩
    · exact hold hs
    · exact ⟨rfl, hcls⟩
  | enqueueRemove =>
    rw [OrdMap.get?_erase] at hs
    split_ifs at hs
    exact hold hs
  | requeue => simp at hs
  | finish bytes kept hphase =>
    cases kept with
    | none => exact hold hs
    | some record =>
      rcases get?_retained hs with hs | ⟨rfl, rfl⟩
      · exact hold hs
      · exact ⟨rfl, hg.kept bytes _ hphase⟩
  | _ => exact hold hs

theorem Good.move_kept (hg : Good sessionOf c) (h : Move sessionOf guard c c') {bytes : ℕ}
    (hs : c'.phase = .ended bytes (some q)) : q.cls = .final := by
  have hold := hg.kept bytes q
  cases h with
  | failManifest record done error hphase =>
    by_cases hcls : record.cls = .final
    · rw [if_pos hcls] at hs
      cases hs
      exact hcls
    · simp [hcls] at hs
  | failSeed record done error hphase =>
    by_cases hcls : record.cls = .final
    · rw [if_pos hcls] at hs
      cases hs
      exact hcls
    · simp [hcls] at hs
  | takeMetadata => cases hs
  | takeOrdered => cases hs
  | skip => cases hs
  | start => cases hs
  | write => cases hs
  | wrote => cases hs
  | seeded => cases hs
  | removeFile => cases hs
  | keepFile => cases hs
  | clear => cases hs
  | ranExclusive => cases hs
  | passed => cases hs
  | finish => cases hs
  | _ => exact hold hs

theorem inFlight_writing {done : Option ℕ} (h : c.phase = .writing record done) :
    Outstanding c record := .inr (.inr (by rw [h]; rfl))

theorem inFlight_seeding {done : Option ℕ} (h : c.phase = .seeding record done) :
    Outstanding c record := .inr (.inr (by rw [h]; rfl))

theorem Good.move_written (hg : Good sessionOf c) (h : Move sessionOf guard c c') (state : ℕ) :
    c'.written state ≤ c'.revision state := by
  have hadvance : ∀ {r : ManifestRevision S}, Outstanding c r →
      Function.update c.written r.state (max (c.written r.state) r.revision) state ≤
        c.revision state := by
    intro r hr
    by_cases hs : state = r.state
    · subst hs
      rw [Function.update_self]
      exact max_le (hg.written _) (hg.numbered r (hg.outstanding r hr)).2
    · rw [Function.update_of_ne hs]
      exact hg.written state
  cases h with
  | number record hsession hrev => exact (hg.written state).trans (le_update (by omega) _)
  | oversized => exact (hg.written state).trans (le_update (Nat.le_succ _) _)
  | wrote record done hphase => exact hadvance (inFlight_writing hphase)
  | seeded record done hphase => exact hadvance (inFlight_seeding hphase)
  | _ => exact hg.written state

/-- **What holds in every run** is kept by every move. -/
theorem Good.move (hg : Good sessionOf c) (h : Move sessionOf guard c c') : Good sessionOf c' := by
  have hsub : ∀ q ∈ c.numbered, q ∈ c'.numbered := fun q => mem_numbered_mono h
  constructor
  · intro q hq
    rcases move_numbered h with heq | ⟨record, heq, hsession, -⟩
    · exact hg.session q (heq ▸ hq)
    · rw [heq] at hq
      rcases List.mem_cons.1 hq with rfl | hq
      · exact hsession
      · exact hg.session q hq
  · intro q hq
    rcases move_numbered h with heq | ⟨record, heq, -, hrev, hrev'⟩
    · obtain ⟨hpos, hle⟩ := hg.numbered q (heq ▸ hq)
      exact ⟨hpos, hle.trans (move_monotone h _).1⟩
    · rw [heq] at hq
      rcases List.mem_cons.1 hq with rfl | hq
      · exact ⟨by omega, hrev'.ge⟩
      · obtain ⟨hpos, hle⟩ := hg.numbered q hq
        exact ⟨hpos, hle.trans (move_monotone h _).1⟩
  · intro q hq r hr hstate hrevision
    rcases move_numbered h with heq | ⟨record, heq, -, hrev, -⟩
    · exact hg.unique q (heq ▸ hq) r (heq ▸ hr) hstate hrevision
    · rw [heq] at hq hr
      rcases List.mem_cons.1 hq with rfl | hq' <;> rcases List.mem_cons.1 hr with rfl | hr'
      · rfl
      · have := (hg.numbered r hr').2
        rw [← hstate] at this
        omega
      · have := (hg.numbered q hq').2
        rw [hstate] at this
        omega
      · exact hg.unique q hq' r hr' hstate hrevision
  · intro q hq
    rcases move_outstanding h hq with hq | ⟨-, hq, -⟩
    · exact hsub q (hg.outstanding q hq)
    · exact hq
  · intro q hq
    rcases move_log h with heq | ⟨record, done, hphase, heq, -⟩
    · exact hsub q (hg.log q (heq ▸ hq))
    · rw [heq] at hq
      rcases List.mem_cons.1 hq with rfl | hq
      · exact hsub _ (hg.outstanding _ (inFlight_writing hphase))
      · exact hsub q (hg.log q hq)
  · intro s q hs
    exact hg.move_metadata h hs
  · intro s q hs
    exact hg.move_pendingFinal h hs
  · intro bytes q hs
    exact hg.move_kept h hs
  · exact hg.move_written h

theorem good_started {sessionOf : ℕ → S} {y : System S} (h : Started sessionOf y) :
    Good sessionOf (core y.service) := by
  have hq := h.queue
  have hwait : ∀ q, ¬ Outstanding (core y.service) q := by
    rintro q (hq' | (⟨d, hq'⟩ | hq' | hq') | hq')
    · simp [core, h.held] at hq'
    · simp [core, hq, Queue.default] at hq'
    · simp [core, hq, Queue.default] at hq'
    · simp [core, hq, Queue.default] at hq'
    · simp [core, h.phase, InFlight] at hq'
  constructor
  · simp [core, h.numbered]
  · simp [core, h.numbered]
  · simp [core, h.numbered]
  · intro q hq'
    exact absurd hq' (hwait q)
  · simp [core, h.log]
  · simp [core, hq, Queue.default]
  · simp [core, hq, Queue.default]
  · simp [core, h.phase]
  · simp [core, h.states, SessionPersistence.default]

end Paneflow.Host.Revisions
