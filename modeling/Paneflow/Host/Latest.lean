import Paneflow.Host.Finals
import Paneflow.Host.Tickets
import Mathlib.Data.List.TakeWhile

/-!
# A drained queue has written the latest revision

Numbers are handed out under one lock and queued under another, so that revisions come to the queue in
any order. In a run in which nothing of a session is refused, fails or is removed, the revision with the
highest number is never lost, provided that no metadata revision takes the place of a newer one in the
queue: `submit` replaces whatever is queued for the session. Under this condition, `latest`, the file
holds the highest number that was handed out once a drain has returned: `reach_latest`. Without it an
update is lost: `not_reach_latest`.
-/

namespace Paneflow.Host.Latest

open Paneflow.Host.Persistence Paneflow.Host.PersistMoves Paneflow.Host.PersistRun
open Paneflow.Host.Revisions Paneflow.Host.Finals Paneflow.Host.Tickets Paneflow.Transition

variable {S : Type} [LinearOrder S] {sessionOf : ℕ → S} {st : ℕ} {c c' : Core S}
  {q r : ManifestRevision S} {t : ℕ}

/-- Nothing of the session of `st` is refused, fails or is removed, and no other state has this
session. -/
abbrev undisturbed (sessionOf : ℕ → S) (st : ℕ) : Guard S where
  number record := record.session = sessionOf st → record.state = st
  oversized state := state ≠ st
  refuse record := record.state ≠ st
  replace _ _ := True
  remove state := sessionOf state ≠ sessionOf st
  write _ _ := True
  fail _ record := record.state ≠ st
  failSeed _ record := record.state ≠ st

/-- Moreover, no revision replaces a newer one in the queue. -/
abbrev latest (sessionOf : ℕ → S) (st : ℕ) : Guard S :=
  { undisturbed sessionOf st with
    replace := fun record previous => record.state = st → previous.revision ≤ record.revision }

instance (sessionOf : ℕ → S) (y : System S) (op : Op S) :
    Decidable (Guarded sessionOf (undisturbed sessionOf st) y op) :=
  guardedDecidable sessionOf y op

instance (sessionOf : ℕ → S) (y : System S) (op : Op S) :
    Decidable (Guarded sessionOf (latest sessionOf st) y op) :=
  guardedDecidable sessionOf y op

/-- The revision with the highest number that was handed out for `st`. -/
def Top (st : ℕ) (c : Core S) (q : ManifestRevision S) : Prop :=
  q ∈ c.numbered ∧ q.state = st ∧ q.revision = c.revision st

structure Newest (sessionOf : ℕ → S) (st : ℕ) (c : Core S) : Prop where
  live : c.removed st = false
  own : ∀ q ∈ c.numbered, q.session = sessionOf st → q.state = st
  removes : ∀ session state done, .remove session state done ∈ c.ordered ∨
    c.phase = .taken (.remove session state done) → session ≠ sessionOf st
  writing : ∀ q done, c.phase = .writing q done → q.state = st → c.written st ≤ q.revision
  seeding : ∀ q done, c.phase = .seeding q done → q.state = st →
    c.written st ≤ q.revision ∧ c.files (sessionOf st) = some q
  kept : ∀ bytes q, c.phase = .ended bytes (some q) → q.state ≠ st
  file : 0 < c.written st → ∃ f, c.files (sessionOf st) = some f ∧ f ∈ c.numbered ∧ f.state = st ∧
    c.written st ≤ f.revision
  top : 0 < c.revision st → c.written st = c.revision st ∨ ∃ q, Top st c q ∧ Outstanding c q

/-! ### The highest number is not lost -/

theorem Newest.own_move (hn : Newest sessionOf st c) (h : Move sessionOf (latest sessionOf st) c c')
    (hr : r ∈ c'.numbered) (hs : r.session = sessionOf st) : r.state = st := by
  cases h with
  | number record hsession hrev hok =>
    rcases List.mem_cons.1 hr with rfl | hr
    · exact hok hs
    · exact hn.own r hr hs
  | _ => exact hn.own r hr hs

section Top
variable (hg : Good sessionOf c) (hn : Newest sessionOf st c)
  (h : Move sessionOf (latest sessionOf st) c c') (hsame : c'.revision st = c.revision st)
  (hq : Top st c q)
include hg hn h hsame hq

/-- Nothing of the session is above the highest number. -/
theorem top_unique (hr : Outstanding c' r) (hs : r.session = q.session)
    (hle : q.revision ≤ r.revision) : r = q := by
  have hg' := hg.move h
  have hnumbered := hg'.outstanding r hr
  have hstate : r.state = st := by
    refine hn.own_move h hnumbered ?_
    rw [hs, hg.session q hq.1, hq.2.1]
  have hbound := (hg'.numbered r hnumbered).2
  rw [hstate, hsame, ← hq.2.2] at hbound
  have hq' := mem_numbered_mono h hq.1
  exact hg'.unique r hnumbered q hq' (hstate.trans hq.2.1.symm) (le_antisymm hbound hle)

/-- A retained final with the highest number stays retained or is queued again. -/
theorem pending_top (hp : q ∈ c.pendingFinal.values) :
    q ∈ c'.pendingFinal.values ∨ ∃ done, .manifest q done ∈ c'.ordered := by
  have hunique : ∀ p ∈ c'.pendingFinal.values, p.session = q.session → q.revision ≤ p.revision →
      q ∈ c'.pendingFinal.values := by
    intro p hp hs hle
    rwa [← top_unique hg hn h hsame hq (.inr (.inl (.inr (.inr hp)))) hs hle]
  cases h with
  | pend record hheld hcls =>
    obtain ⟨p, hp, hs, -, hle⟩ := retained_still hg.pendingFinal hcls hp
    exact .inl (hunique p hp hs hle)
  | enqueueRemove session state done hsession hremoved hok =>
    obtain ⟨s, hs⟩ := OrdMap.mem_values.1 hp
    obtain ⟨rfl, -⟩ := hg.pendingFinal s q hs
    refine .inl (OrdMap.mem_values.2 ⟨q.session, ?_⟩)
    rw [OrdMap.get?_erase, if_neg, hs]
    rw [hg.session q hq.1, hq.2.1, hsession]
    exact fun heq => hok heq.symm
  | requeue => exact .inr ⟨none, List.mem_append_right _ (List.mem_map.2 ⟨q, hp, rfl⟩)⟩
  | finish bytes kept hphase =>
    cases kept with
    | none => exact .inl hp
    | some record =>
      obtain ⟨p, hp, hs, -, hle⟩ :=
        retained_still hg.pendingFinal (hg.kept bytes record hphase) hp
      exact .inl (hunique p hp hs hle)
  | _ => exact .inl hp

/-- The metadata revision with the highest number is not replaced. -/
theorem metadata_top (hp : q ∈ c.metadata.values) :
    q ∈ c'.metadata.values ∨ InFlight c'.phase q := by
  obtain ⟨s, hs⟩ := OrdMap.mem_values.1 hp
  obtain ⟨rfl, -, -⟩ := hg.metadata s q hs
  cases h with
  | replace record previous hheld hcls hprev hok =>
    by_cases hk : q.session = record.session
    · obtain rfl : q = previous := Option.some.inj (by rw [← hs, hk, hprev])
      have hle : q.revision ≤ record.revision := by
        refine hok (hn.own record (hg.outstanding record (.inl hheld)) ?_)
        rw [← hk, hg.session q hq.1, hq.2.1]
      have hmem : record ∈ ((c.metadata.erase record.session).insert record.session record).values :=
        OrdMap.mem_values.2 ⟨record.session, by simp⟩
      have heq : record = q := top_unique hg hn (.replace c record q hheld hcls hprev hok) hsame hq
        (.inr (.inl (.inr (.inl hmem)))) hk.symm hle
      exact .inl (heq ▸ hmem)
    · exact .inl (OrdMap.mem_values.2 ⟨q.session, by simp [hk, hs]⟩)
  | add record hheld hcls hnone =>
    have hk : q.session ≠ record.session := by
      intro hk
      cases hnone.symm.trans (hk ▸ hs)
    exact .inl (OrdMap.mem_values.2 ⟨q.session, by simp [hk, hs]⟩)
  | enqueueRemove session state done hsession hremoved hok =>
    refine .inl (OrdMap.mem_values.2 ⟨q.session, ?_⟩)
    rw [OrdMap.get?_erase, if_neg, hs]
    rw [hg.session q hq.1, hq.2.1, hsession]
    exact fun heq => hok heq.symm
  | takeMetadata skipped order session record hphase horder hskip hrecord =>
    by_cases hk : q.session = session
    · obtain rfl : record = q := Option.some.inj (by rw [← hrecord, ← hs, hk])
      exact .inr rfl
    · exact .inl (OrdMap.mem_values.2 ⟨q.session, by simp [hk, hs]⟩)
  | _ => exact .inl hp

/-- The writer writes the highest number when it has taken it. -/
theorem inFlight_top (hp : InFlight c.phase q) :
    InFlight c'.phase q ∨ q.revision ≤ c'.written st := by
  obtain ⟨-, hstate, hrev⟩ := hq
  have hwritten : ∀ {record : ManifestRevision S}, record = q →
      q.revision ≤ Function.update c.written record.state
        (max (c.written record.state) record.revision) st := by
    rintro record rfl
    rw [← hstate]
    exact le_update_max _ _ _
  cases h with
  | skip record done hphase hskip =>
    obtain rfl : record = q := by rwa [hphase] at hp
    rcases hskip with hremoved | hold
    · rw [hstate, hn.live] at hremoved
      cases hremoved
    · have := hg.written record.state
      rw [hstate] at this hold
      omega
  | start record done hphase => exact .inl (by rwa [hphase] at hp)
  | write record done hphase => exact .inl (by rwa [hphase] at hp)
  | wrote record done hphase => exact .inr (hwritten (by rwa [hphase] at hp))
  | seeded record done hphase => exact .inr (hwritten (by rwa [hphase] at hp))
  | failManifest record done error hphase hok =>
    obtain rfl : record = q := by rwa [hphase] at hp
    exact absurd hstate hok
  | failSeed record done error hphase hok =>
    obtain rfl : record = q := by rwa [hphase] at hp
    exact absurd hstate hok
  | finish bytes kept hphase =>
    cases kept with
    | none => exact absurd hp (by simp [hphase, InFlight])
    | some record =>
      obtain rfl : record = q := by rwa [hphase] at hp
      exact absurd hstate (hn.kept bytes record hphase)
  | _ => first | exact .inl hp | exact absurd hp (by simp [‹c.phase = _›, InFlight])

/-- A revision with the highest number that is submitted comes into the queue. -/
theorem held_top (hp : q ∈ c.held) : Outstanding c' q := by
  have herase : ∀ {record : ManifestRevision S}, q ≠ record → q ∈ c.held.erase record := fun hne =>
    (List.mem_erase_of_ne hne).2 hp
  cases h with
  | number record => exact .inl (List.mem_cons_of_mem _ hp)
  | push record done hheld =>
    by_cases heq : q = record
    · exact .inr (.inl (.inl ⟨done, by simp [heq]⟩))
    · exact .inl (herase heq)
  | replace record previous hheld hcls hprev hok =>
    by_cases heq : q = record
    · exact .inr (.inl (.inr (.inl (OrdMap.mem_values.2 ⟨record.session, by simp [heq]⟩))))
    · exact .inl (herase heq)
  | add record hheld hcls hnone =>
    by_cases heq : q = record
    · exact .inr (.inl (.inr (.inl (OrdMap.mem_values.2 ⟨record.session, by simp [heq]⟩))))
    · exact .inl (herase heq)
  | refuse record hok =>
    by_cases heq : q = record
    · exact absurd (heq ▸ hq.2.1) hok
    · exact .inl (herase heq)
  | pend record hheld hcls =>
    by_cases heq : q = record
    · subst heq
      obtain ⟨p, hp, hs, -, hle⟩ := retained_newer hg.pendingFinal hcls
      have hp' : Outstanding { c with
          held := c.held.erase q
          pendingFinal := retained c.pendingFinal q } p := .inr (.inl (.inr (.inr hp)))
      rwa [top_unique hg hn (.pend c q hheld hcls) hsame hq hp' hs hle] at hp'
    · exact .inl (herase heq)
  | _ => exact .inl hp

/-- **The highest number is not lost**: it stays under way until it is written. -/
theorem outstanding_top (hp : Outstanding c q) : Outstanding c' q ∨ q.revision ≤ c'.written st := by
  rcases hp with hp | (⟨done, hp⟩ | hp | hp) | hp
  · exact .inl (held_top hg hn h hsame hq hp)
  · exact .inl (.inr (ordered_stored h hp))
  · rcases metadata_top hg hn h hsame hq hp with hp | hp
    · exact .inl (.inr (.inl (.inr (.inl hp))))
    · exact .inl (.inr (.inr hp))
  · rcases pending_top hg hn h hsame hq hp with hp | hp
    · exact .inl (.inr (.inl (.inr (.inr hp))))
    · exact .inl (.inr (.inl (.inl hp)))
  · rcases inFlight_top hg hn h hsame hq hp with hp | hp
    · exact .inl (.inr (.inr hp))
    · exact .inr hp

end Top

/-! ### The invariant -/

section Move
variable (hg : Good sessionOf c) (hn : Newest sessionOf st c)
  (h : Move sessionOf (latest sessionOf st) c c')
include h

/-- A number that is handed out for `st` goes with a snapshot. -/
theorem revision_move : c'.revision st = c.revision st ∨ ∃ q, Top st c' q ∧ q ∈ c'.held := by
  cases h with
  | number record hsession hrev hok =>
    by_cases hs : st = record.state
    · subst hs
      exact .inr ⟨record, ⟨by simp, rfl, by simp⟩, by simp⟩
    · exact .inl (by simp [hs])
  | oversized state hok => exact .inl (Function.update_of_ne (fun heq => hok heq.symm) _ _)
  | _ => exact .inl rfl

include hn

theorem live_move : c'.removed st = false := by
  cases h with
  | markRemoved state hok =>
    have hne : st ≠ state := by
      rintro rfl
      exact hok rfl
    exact (Function.update_of_ne hne _ _).trans hn.live
  | _ => exact hn.live

theorem removes_move {session : S} {state : ℕ} {done : Option ℕ}
    (hjob : .remove session state done ∈ c'.ordered ∨ c'.phase = .taken (.remove session state done)) :
    session ≠ sessionOf st := by
  have hold := hn.removes session state done
  cases h with
  | push => exact hold (by simpa using hjob)
  | enqueueRemove session' state' done' hsession hremoved hok =>
    rcases hjob with hjob | hjob
    · rcases List.mem_append.1 hjob with hjob | hjob
      · exact hold (.inl hjob)
      · cases List.mem_singleton.1 hjob
        rw [hsession]
        exact hok
    · exact hold (.inr hjob)
  | exclusive => exact hold (by simpa using hjob)
  | barrier => exact hold (by simpa using hjob)
  | requeue => exact hold (by simpa using hjob)
  | takeOrdered order job ordered hphase hordered =>
    refine hold (.inl ?_)
    rw [hordered]
    rcases hjob with hjob | hjob
    · exact List.mem_cons_of_mem _ hjob
    · cases hjob
      exact List.mem_cons_self
  | _ => first | exact hold hjob | exact hold (.inl (hjob.resolve_right (by simp)))

theorem kept_move {bytes : ℕ} (hphase : c'.phase = .ended bytes (some q)) : q.state ≠ st := by
  have hold := hn.kept bytes q
  cases h with
  | failManifest record done error hphase' hok =>
    by_cases hcls : record.cls = .final
    · rw [if_pos hcls] at hphase
      cases hphase
      exact hok
    · rw [if_neg hcls] at hphase
      cases hphase
  | failSeed record done error hphase' hok =>
    by_cases hcls : record.cls = .final
    · rw [if_pos hcls] at hphase
      cases hphase
      exact hok
    · rw [if_neg hcls] at hphase
      cases hphase
  | _ => first | exact hold hphase | cases hphase

theorem writing_move {done : Option ℕ} (hphase : c'.phase = .writing q done) (hstate : q.state = st) :
    c'.written st ≤ q.revision := by
  have hold := hn.writing q done
  cases h with
  | start record done' hphase' hlive hnew =>
    cases hphase
    rw [← hstate]
    exact hnew
  | _ => first | exact hold hphase hstate | cases hphase

include hg

theorem seeding_move {done : Option ℕ} (hphase : c'.phase = .seeding q done) (hstate : q.state = st) :
    c'.written st ≤ q.revision ∧ c'.files (sessionOf st) = some q := by
  have hold := hn.seeding q done
  cases h with
  | write record done' hphase' hseed =>
    cases hphase
    refine ⟨hn.writing q done hphase' hstate, ?_⟩
    have hsession := hg.session q (hg.outstanding q (inFlight_writing hphase'))
    rw [← hstate, ← hsession]
    exact Function.update_self ..
  | removeFile session state done' hphase' => cases hphase
  | _ => first | exact hold hphase hstate | cases hphase

theorem file_move (hpos : 0 < c'.written st) : ∃ f, c'.files (sessionOf st) = some f ∧
    f ∈ c'.numbered ∧ f.state = st ∧ c'.written st ≤ f.revision := by
  -- a write of another session leaves the file alone, and one of this session is not below `written`
  have hupdate : ∀ {record : ManifestRevision S} {done : Option ℕ}, c.phase = .writing record done →
      0 < c.written st → ∃ f, Function.update c.files record.session (some record) (sessionOf st) =
        some f ∧ f ∈ c.numbered ∧ f.state = st ∧ c.written st ≤ f.revision := by
    intro record done hphase hpos
    have hnumbered := hg.outstanding record (inFlight_writing hphase)
    by_cases hs : sessionOf st = record.session
    · have hstate := hn.own record hnumbered hs.symm
      refine ⟨record, by rw [hs, Function.update_self], hnumbered, hstate, ?_⟩
      exact hn.writing record done hphase hstate
    · rw [Function.update_of_ne hs]
      exact hn.file hpos
  cases h with
  | number record hsession hrev hok =>
    obtain ⟨f, hf, hnumbered, hrest⟩ := hn.file hpos
    exact ⟨f, hf, List.mem_cons_of_mem _ hnumbered, hrest⟩
  | write record done hphase => exact hupdate hphase hpos
  | wrote record done hphase hseed =>
    by_cases hs : st = record.state
    · have hnumbered := hg.outstanding record (inFlight_writing hphase)
      have hsession := hg.session record hnumbered
      refine ⟨record, ?_, hnumbered, hs.symm, ?_⟩
      · show Function.update c.files record.session (some record) (sessionOf st) = some record
        rw [hs, ← hsession, Function.update_self]
      · have hle := hn.writing record done hphase hs.symm
        subst hs
        dsimp only
        rw [Function.update_self]
        exact Nat.max_le.2 ⟨hle, Nat.le_refl _⟩
    · have hsame : Function.update c.written record.state
          (max (c.written record.state) record.revision) st = c.written st :=
        Function.update_of_ne hs _ _
      dsimp only at hpos ⊢
      rw [hsame] at hpos ⊢
      exact hupdate hphase hpos
  | seeded record done hphase =>
    by_cases hs : st = record.state
    · obtain ⟨hle, hfile⟩ := hn.seeding record done hphase hs.symm
      refine ⟨record, hfile, hg.outstanding record (inFlight_seeding hphase), hs.symm, ?_⟩
      subst hs
      dsimp only
      rw [Function.update_self]
      exact Nat.max_le.2 ⟨hle, Nat.le_refl _⟩
    · have hsame : Function.update c.written record.state
          (max (c.written record.state) record.revision) st = c.written st :=
        Function.update_of_ne hs _ _
      dsimp only at hpos ⊢
      rw [hsame] at hpos ⊢
      exact hn.file hpos
  | removeFile session state done hphase =>
    have hne := hn.removes session state done (.inr hphase)
    obtain ⟨f, hf, hrest⟩ := hn.file hpos
    exact ⟨f, (Function.update_of_ne hne.symm _ _).trans hf, hrest⟩
  | _ => exact hn.file hpos

theorem top_move (hpos : 0 < c'.revision st) :
    c'.written st = c'.revision st ∨ ∃ q, Top st c' q ∧ Outstanding c' q := by
  rcases revision_move h with hsame | ⟨q, hq, hheld⟩
  · have hbound := (hg.move h).written st
    rcases hn.top (hsame ▸ hpos) with hwritten | ⟨q, hq, hout⟩
    · have := (move_monotone h st).2.1
      exact .inl (by omega)
    · have hq' : Top st c' q := ⟨mem_numbered_mono h hq.1, hq.2.1, hq.2.2.trans hsame.symm⟩
      rcases outstanding_top hg hn h hsame hq hout with hout | hle
      · exact .inr ⟨q, hq', hout⟩
      · rw [hq'.2.2] at hle
        exact .inl (le_antisymm hbound hle)
  · exact .inr ⟨q, hq, .inl hheld⟩

theorem Newest.move : Newest sessionOf st c' := by
  constructor
  · exact live_move hn h
  · exact fun q => hn.own_move h
  · exact fun session state done => removes_move hn h
  · exact fun q done => writing_move hn h
  · exact fun q done => seeding_move hg hn h
  · exact fun bytes q => kept_move hn h
  · exact file_move hg hn h
  · exact top_move hg hn h

end Move

/-! ### Drains -/

/-- The writer comes to `q` before it comes to the barrier of the drain `t`. -/
def Ahead (c : Core S) (t : ℕ) (q : ManifestRevision S) : Prop :=
  InFlight c.phase q ∨ q ∈ c.metadata.values ∨
    ∃ done, .manifest q done ∈ c.ordered.takeWhile fun job => job ≠ .barrier t

theorem mem_takeWhile_append {α : Type} {p : α → Bool} {a : α} {l l' : List α}
    (h : a ∈ l.takeWhile p) : a ∈ (l ++ l').takeWhile p := by
  induction l with
  | nil => simp at h
  | cons x l ih =>
    by_cases hx : p x = true
    · rw [List.cons_append, List.takeWhile_cons_of_pos hx] at *
      rcases List.mem_cons.1 h with rfl | h
      · exact List.mem_cons_self
      · exact List.mem_cons_of_mem _ (ih h)
    · rw [List.takeWhile_cons_of_neg hx] at h
      simp at h

theorem ordered_ahead {guard : Guard S} {done : Option ℕ} (h : Move sessionOf guard c c')
    (hq : .manifest q done ∈ c.ordered.takeWhile fun job => job ≠ .barrier t) : Ahead c' t q := by
  cases h with
  | push => exact .inr (.inr ⟨done, mem_takeWhile_append hq⟩)
  | enqueueRemove => exact .inr (.inr ⟨done, mem_takeWhile_append hq⟩)
  | exclusive => exact .inr (.inr ⟨done, mem_takeWhile_append hq⟩)
  | barrier => exact .inr (.inr ⟨done, mem_takeWhile_append hq⟩)
  | requeue => exact .inr (.inr ⟨done, mem_takeWhile_append hq⟩)
  | takeOrdered order job ordered hphase hordered =>
    rw [hordered] at hq
    by_cases hjob : job = .barrier t
    · rw [List.takeWhile_cons_of_neg (by simp [hjob])] at hq
      simp at hq
    · rw [List.takeWhile_cons_of_pos (by simp [hjob])] at hq
      rcases List.mem_cons.1 hq with rfl | hq
      · exact .inl rfl
      · exact .inr (.inr ⟨done, hq⟩)
  | _ => exact .inr (.inr ⟨done, hq⟩)

/-- The barrier of a drain is only taken when nothing is ahead of it. -/
theorem not_ahead_of_taken {guard : Guard S} (hg : Good sessionOf c) (h : Move sessionOf guard c c')
    (htaken : current c'.phase = some (.barrier t)) :
    current c.phase = some (.barrier t) ∨ ¬ Ahead c t q := by
  cases h with
  | takeMetadata => cases htaken
  | takeOrdered order job ordered hphase hordered horder hbarrier =>
    cases htaken
    refine .inr ?_
    rintro (hq | hq | ⟨done, hq⟩)
    · simp [hphase, InFlight] at hq
    · obtain ⟨s, hs⟩ := OrdMap.mem_values.1 hq
      exact absurd (hbarrier t rfl s (hg.metadata s q hs).2.2) (by simp [hs])
    · rw [hordered, List.takeWhile_cons_of_neg (by simp)] at hq
      simp at hq
  | _ => first | exact .inl htaken | cases htaken

theorem ahead_top (hg : Good sessionOf c) (hn : Newest sessionOf st c)
    (h : Move sessionOf (latest sessionOf st) c c') (hsame : c'.revision st = c.revision st)
    (hq : Top st c q) (ha : Ahead c t q) : Ahead c' t q ∨ q.revision ≤ c'.written st := by
  rcases ha with ha | ha | ⟨done, ha⟩
  · rcases inFlight_top hg hn h hsame hq ha with ha | ha
    · exact .inl (.inl ha)
    · exact .inr ha
  · rcases metadata_top hg hn h hsame hq ha with ha | ha
    · exact .inl (.inr (.inl ha))
    · exact .inl (.inl ha)
  · exact .inl (ordered_ahead h ha)

/-- A drain that is still to return and that nothing has answered yet has the highest number ahead. -/
def Pending (st : ℕ) (y : System S) (t : ℕ) : Prop :=
  y.service.replies t = none ∧ current y.service.phase ≠ some (.barrier t) ∧
    ∃ q, Top st (core y.service) q ∧ Ahead (core y.service) t q

structure Drained (sessionOf : ℕ → S) (st : ℕ) (y : System S) : Prop where
  good : Good sessionOf (core y.service)
  newest : Newest sessionOf st (core y.service)
  tickets : SingleUse y
  issued : ∀ t d, y.drains t = some d → d.issued st ≤ (core y.service).revision st
  drains : ∀ t d, y.drains t = some d → (∀ q ∈ d.held, q.state ≠ st) →
    d.issued st = (core y.service).revision st → 0 < (core y.service).revision st →
    (core y.service).written st = (core y.service).revision st ∨ d.stage = .returned false ∨
      (d.stage = .taken ∨ d.stage = .waiting) ∧ Pending st y t

section Drain
variable {y y' : System S} {op : Op S}

theorem Pending.step (hy : Drained sessionOf st y) (h : y.step sessionOf op = some y')
    (hok : Guarded sessionOf (latest sessionOf st) y op) {d : Drain S} (hd : y.drains t = some d)
    (hsame : (core y'.service).revision st = (core y.service).revision st) (hp : Pending st y t) :
    Pending st y' t ∨ (core y'.service).written st = (core y'.service).revision st := by
  obtain ⟨hreply, hcurrent, q, hq, ha⟩ := hp
  have hmove := step_move_guarded h hok
  rcases ahead_top hy.good hy.newest hmove hsame hq ha with ha' | hle
  · refine .inl ⟨?_, ?_, q, ⟨mem_numbered_mono hmove hq.1, hq.2.1, hq.2.2.trans hsame.symm⟩, ha'⟩
    · refine Option.eq_none_iff_forall_ne_some.2 fun result hr => ?_
      rcases move_replies hmove hr with hr | ⟨job, hjob, hticket⟩
      · cases hreply.symm.trans hr
      · obtain ⟨rfl, -⟩ := (hy.tickets.drains t d hd).1 job (.inr hjob) hticket
        exact hcurrent hjob
    · intro htaken
      rcases not_ahead_of_taken hy.good hmove htaken with htaken | hnot
      · exact hcurrent htaken
      · exact hnot ha
  · have hbound := (hy.good.move hmove).written st
    rw [hq.2.2, ← hsame] at hle
    exact .inr (le_antisymm hbound hle)

/-- When a drain begins and nothing of `st` is held, the highest number is written or ahead. -/
theorem pending_drainTake (hy : Drained sessionOf st y) (hheld : ∀ q ∈ y.service.held, q.state ≠ st)
    (hpos : 0 < (core y.service).revision st) :
    (core y.service).written st = (core y.service).revision st ∨
      Pending st y.drainTake y.nextTicket := by
  rcases hy.newest.top hpos with hwritten | ⟨q, hq, hout⟩
  · exact .inl hwritten
  refine .inr ⟨(hy.tickets.fresh _ (Nat.le_refl _)).2.2, ?_, q, hq, ?_⟩
  · intro hcurrent
    exact Nat.lt_irrefl _ (hy.tickets.present _ _ (.inr hcurrent) rfl)
  -- no barrier with the new ticket is in the queue yet
  have hall : ∀ job ∈ y.drainTake.service.queue.ordered,
      decide (job ≠ .barrier y.nextTicket) = true := by
    intro job hjob
    rcases List.mem_append.1 hjob with hjob | hjob
    · refine decide_eq_true ?_
      rintro rfl
      exact Nat.lt_irrefl _ (hy.tickets.present _ _ (.inl hjob) rfl)
    · obtain ⟨r, -, rfl⟩ := List.mem_map.1 hjob
      simp
  have hordered : ∀ done, .manifest q done ∈ y.drainTake.service.queue.ordered →
      Ahead (core y.drainTake.service) y.nextTicket q := by
    intro done hjob
    refine .inr (.inr ⟨done, ?_⟩)
    show _ ∈ y.drainTake.service.queue.ordered.takeWhile _
    rwa [List.takeWhile_eq_self_iff.2 hall]
  rcases hout with hp | (⟨done, hp⟩ | hp | hp) | hp
  · exact absurd hq.2.1 (hheld q hp)
  · exact hordered done (List.mem_append_left _ hp)
  · exact .inr (.inl hp)
  · exact hordered none (List.mem_append_right _ (List.mem_map.2 ⟨q, hp, rfl⟩))
  · exact .inl hp

theorem revision_drainBarrier (st : ℕ) (y : System S) (t : ℕ) (d : Drain S) :
    (core (y.drainBarrier t d).service).revision st = (core y.service).revision st := by
  unfold System.drainBarrier Service.drainBarrier
  split_ifs <;> rfl

theorem stage_drainBarrier {d d' : Drain S} (hd : (y.drainBarrier t d).drains t = some d') :
    d'.stage = .returned false ∨ d'.stage = .waiting := by
  unfold System.drainBarrier Service.drainBarrier at hd
  split_ifs at hd
  · dsimp only at hd
    rw [Function.update_self, Option.some.injEq] at hd
    exact .inl (by rw [← hd])
  · dsimp only at hd
    rw [Function.update_self, Option.some.injEq] at hd
    exact .inr (by rw [← hd])

theorem Drained.step (hy : Drained sessionOf st y) (hok : Guarded sessionOf (latest sessionOf st) y op)
    (h : y.step sessionOf op = some y') : Drained sessionOf st y' := by
  have hmove := step_move_guarded h hok
  obtain ⟨hrevision, hwritten, -⟩ := move_monotone hmove st
  have hbound := (hy.good.move hmove).written st
  constructor
  · exact hy.good.move hmove
  · exact hy.newest.move hy.good hmove
  · exact hy.tickets.step h
  · intro t d hd
    rcases step_drain h hd with hd | ⟨rfl, rfl⟩ | ⟨d', hd', ⟨-, rfl⟩ | ⟨result, -, -, rfl⟩⟩
    · exact (hy.issued t d hd).trans hrevision
    · simp only [System.drainTake, Function.update_self, Option.some.injEq] at hd
      rw [← hd]
      exact Nat.le_refl _
    · simp only [System.drainBarrier, Function.update_self, Option.some.injEq] at hd
      rw [← hd]
      exact (hy.issued t d' hd').trans hrevision
    · simp only [System.drainReturn, Function.update_self, Option.some.injEq] at hd
      rw [← hd]
      exact hy.issued t d' hd'
  · intro t d hd hheld hissued hpos
    rcases step_drain h hd with hd' | ⟨rfl, rfl⟩ | ⟨d', hd', ⟨hstage, rfl⟩ | ⟨result, hstage, hreply, rfl⟩⟩
    · have hsame : (core y'.service).revision st = (core y.service).revision st := by
        have := hy.issued t d hd'
        omega
      rcases hy.drains t d hd' hheld (hissued.trans hsame) (hsame ▸ hpos) with hw | hr | ⟨hs, hp⟩
      · exact .inl (by omega)
      · exact .inr (.inl hr)
      · rcases hp.step hy h hok hd' hsame with hp | hw
        · exact .inr (.inr ⟨hs, hp⟩)
        · exact .inl hw
    · simp only [System.drainTake, Function.update_self, Option.some.injEq] at hd
      subst hd
      rcases pending_drainTake hy hheld hpos with hw | hp
      · exact .inl hw
      · exact .inr (.inr ⟨.inl rfl, hp⟩)
    · have hsame := revision_drainBarrier st y t d'
      have hstage' := stage_drainBarrier hd
      simp only [System.drainBarrier, Function.update_self, Option.some.injEq] at hd
      subst hd
      rcases hy.drains t d' hd' hheld (hissued.trans hsame) (hsame ▸ hpos) with hw | hr | ⟨-, hp⟩
      · exact .inl (by omega)
      · cases hstage.symm.trans hr
      · rcases hp.step hy h hok hd' hsame with hp | hw
        · rcases hstage' with hs | hs
          · exact .inr (.inl hs)
          · exact .inr (.inr ⟨.inr hs, hp⟩)
        · exact .inl hw
    · simp only [System.drainReturn, Function.update_self, Option.some.injEq] at hd
      subst hd
      rcases hy.drains t d' hd' hheld hissued hpos with hw | hr | ⟨-, hnone, -⟩
      · exact .inl hw
      · cases hstage.symm.trans hr
      · cases hnone.symm.trans hreply

theorem drained_started (h : Started sessionOf y) : Drained sessionOf st y := by
  have hzero : (core y.service).revision st = 0 := by simp [core, h.states, SessionPersistence.default]
  constructor
  · exact good_started h
  · constructor
    · simp [core, h.states, SessionPersistence.default]
    · simp [core, h.numbered]
    · simp [core, h.queue, h.phase, Queue.default]
    · simp [core, h.phase]
    · simp [core, h.phase]
    · simp [core, h.phase]
    · simp [core, h.states, SessionPersistence.default]
    · simp [hzero]
  · exact singleUse_started h
  · simp [h.drains]
  · simp [h.drains]

/-- **A drained queue has written the latest revision.** In every run in which nothing of the session is
refused, fails or is removed and no metadata revision replaces a newer one: when a drain has returned
`Ok` that began when no revision of `st` was held, and no number was handed out since then, then the file
holds the snapshot with the highest number. -/
theorem reach_latest {d : Drain S}
    (h : Reach (System.step sessionOf) (Started sessionOf) (Guarded sessionOf (latest sessionOf st)) y)
    (hd : y.drains t = some d) (hok : d.stage = .returned true) (hheld : ∀ q ∈ d.held, q.state ≠ st)
    (hissued : d.issued st = (y.service.states st).revision)
    (hpos : 0 < (y.service.states st).revision) :
    ∃ f, y.service.files (sessionOf st) = some f ∧ f ∈ y.service.numbered ∧ f.state = st ∧
      f.revision = (y.service.states st).revision := by
  have hy : Drained sessionOf st y :=
    h.invariant (fun _ => drained_started) (fun _ _ _ hi hc hs => hi.step hc hs)
  rcases hy.drains t d hd hheld hissued hpos with hwritten | hfalse | ⟨hs | hs, -⟩
  · obtain ⟨f, hf, hnumbered, hstate, hle⟩ := hy.newest.file (hwritten ▸ hpos)
    have hbound := (hy.good.numbered f hnumbered).2
    rw [hstate] at hbound
    exact ⟨f, hf, hnumbered, hstate, le_antisymm hbound (hwritten.symm.le.trans hle)⟩
  · cases hok.symm.trans hfalse
  · cases hok.symm.trans hs
  · cases hok.symm.trans hs

end Drain

/-- The calls of a drain, with the writer's steps for one revision and the barrier. -/
def drainOne : List (Op ℕ) :=
  [.drainTake, .drainBarrier 0, .take, .execute ⟨none, .ok, true⟩, .execute ⟨none, .ok, true⟩, .finish,
    .take, .execute ⟨none, .ok, true⟩, .finish, .drainReturn 0]

/-- Two updates of the metadata that come to the queue in order. -/
def inOrder : List (Op ℕ) :=
  [.number 0 1 [1] none .metadata, .number 0 1 [2] none .metadata,
    .submit ⟨0, 1, 1, [1], none, 0, .metadata⟩, .submit ⟨0, 1, 2, [2], none, 0, .metadata⟩]

/-- The same two, where the older one comes last. -/
def outOfOrder : List (Op ℕ) :=
  [.number 0 1 [1] none .metadata, .number 0 1 [2] none .metadata,
    .submit ⟨0, 1, 2, [2], none, 0, .metadata⟩, .submit ⟨0, 1, 1, [1], none, 0, .metadata⟩]

theorem not_reach_latest : ∃ (y : System ℕ) (d : Drain ℕ) (f : ManifestRevision ℕ),
    Reach (System.step id) (Started id) (Guarded id (undisturbed id 0)) y ∧
      y.drains 0 = some d ∧ d.stage = .returned true ∧ d.held = [] ∧
      d.issued 0 = (y.service.states 0).revision ∧ y.service.files 0 = some f ∧
      f.revision < (y.service.states 0).revision := by
  have hstart : Reach (System.step id) (Started id) (Guarded id (undisturbed id 0))
      (.start : System ℕ) := .init (started_start id)
  exact ⟨_, _, _, hstart.follow (outOfOrder ++ drainOne) rfl, rfl, rfl, rfl, rfl, rfl, by decide⟩

theorem reach_latest_two : ∃ (y : System ℕ) (d : Drain ℕ),
    Reach (System.step id) (Started id) (Guarded id (latest id 0)) y ∧ y.drains 0 = some d ∧
      (y.service.states 0).revision = 2 ∧ ∃ f, y.service.files 0 = some f ∧
      f ∈ y.service.numbered ∧ f.state = 0 ∧ f.revision = (y.service.states 0).revision := by
  have hstart : Reach (System.step id) (Started id) (Guarded id (latest id 0))
      (.start : System ℕ) := .init (started_start id)
  obtain ⟨y, d, hreach, hd, hstage, hheld, hissued, hrev⟩ : ∃ y d,
      Reach (System.step id) (Started id) (Guarded id (latest id 0)) y ∧ y.drains 0 = some d ∧
      d.stage = .returned true ∧ d.held = [] ∧ d.issued 0 = (y.service.states 0).revision ∧
      (y.service.states 0).revision = 2 :=
    ⟨_, _, hstart.follow (inOrder ++ drainOne) rfl, rfl, rfl, rfl, rfl, rfl⟩
  exact ⟨y, d, hreach, hd, hrev, reach_latest hreach hd hstage (by simp [hheld]) hissued (by simp [hrev])⟩

end Paneflow.Host.Latest
