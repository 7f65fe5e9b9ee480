import Paneflow.Host.Ownership

/-!
# Shutting down

A shutdown that sets the flag holds it until it fails: no launch is admitted meanwhile, so a session that is
stopped stays stopped, and when all are, the shutdown returns (`Steady`, `Knows`). The flag stays set after a
shutdown has returned, in every timely run (`reach_shutDown`).
-/

namespace Paneflow.Host.Shutdown

open Paneflow.Host.Persistence Paneflow.Host.Sessions Paneflow.Host.Calls Paneflow.Host.Machine
open Paneflow.Host.Effects Paneflow.Host.Launches Paneflow.Host.ShutdownMoves
open Paneflow.Host.Ownership Paneflow.Threads Paneflow.Transition

variable {S : Type} [LinearOrder S]

/-! ### Holding the flag -/

section
variable {host : Identity S} {me : ℕ} {sh : Shared S} {f f' : Flags S} {v v' : Records S}
  {old new : Duty S}

/-- The flag is set while a shutdown holds it, and a stop that was reported as done has left nothing behind
while its shutdown holds the flag. -/
structure Steady (f : Flags S) (v : Records S) : Prop where
  flag : f.shuttingDown = f.holder.isSome
  holder : ∀ w, f.holder = some w → w ∈ f.flagged
  spawned : ∀ entry ∈ f.spawned, entry.2.2 ∈ f.flagged
  results : ∀ result ∈ f.results, result.1 ∈ f.flagged ∧
    (result.2.2 = true → f.holder = some result.1 → Clear f.runtimes v result.2.1)

/-- What a call knows about the shutdowns, by its duty. -/
def Knows (me : ℕ) (f : Flags S) (v : Records S) : Duty S → Prop
  | .plain => f.holder ≠ some me
  | .fresh => f.holder ≠ some me ∧ me ∉ f.flagged
  | .stop w => f.holder ≠ some me ∧ w ∈ f.flagged
  | .stopping w session name => f.holder ≠ some me ∧ w ∈ f.flagged ∧
    (f.holder = some w → Unlaunched (· = name) v session)
  | .confirmed w session => f.holder ≠ some me ∧ w ∈ f.flagged ∧
    (f.holder = some w → Clear f.runtimes v session)
  | .collecting left => f.holder = some me ∧ ∀ s ∉ left, Clear f.runtimes v s
  | .cleared => f.holder = some me ∧ ∀ s, Clear f.runtimes v s
  | .clearing => f.holder = some me

/-- While the flag is set, a stopped session stays stopped. -/
structure Preserves (f : Flags S) (v : Records S) (f' : Flags S) (v' : Records S) : Prop where
  clear : f.shuttingDown = true → ∀ s, Clear f.runtimes v s → Clear f'.runtimes v' s
  unlaunched : f.shuttingDown = true → ∀ name s, Unlaunched (· = name) v s →
    Unlaunched (· = name) v' s

/-- What the other calls can rely on. -/
structure Guards (me : ℕ) (f : Flags S) (v : Records S) (f' : Flags S) (v' : Records S) : Prop where
  flagged : ∀ w ∈ f.flagged, w ∈ f'.flagged
  fresh : ∀ w ≠ me, w ∈ f'.flagged → w ∈ f.flagged
  holds : ∀ w ≠ me, f.holder = some w → f'.holder = some w
  held : ∀ w, f'.holder = some w → w = me ∧ me ∉ f.flagged ∨ f.holder = some w
  preserves : Preserves f v f' v'

theorem Steady.set {w : ℕ} (hs : Steady f v) (h : f.holder = some w) : f.shuttingDown = true := by
  rw [hs.flag, h]
  rfl

/-- The step leaves the flag alone. -/
structure SameFlag (f f' : Flags S) : Prop where
  shuttingDown : f'.shuttingDown = f.shuttingDown
  holder : f'.holder = f.holder
  flagged : f'.flagged = f.flagged

theorem SameFlag.guards (h : SameFlag f f') (hp : Preserves f v f' v') : Guards me f v f' v' := by
  refine ⟨fun w hw => ?_, fun w _ hw => ?_, fun w _ hw => ?_, fun w hw => .inr ?_, hp⟩
  · exact h.flagged ▸ hw
  · exact h.flagged ▸ hw
  · exact h.holder ▸ hw
  · exact h.holder ▸ hw

theorem SameFlag.steady (h : SameFlag f f') (hp : Preserves f v f' v') (hs : Steady f v)
    (hspawned : ∀ entry ∈ f'.spawned, entry ∈ f.spawned ∨ entry.2.2 ∈ f.flagged)
    (hresults : ∀ result ∈ f'.results, result ∈ f.results ∨ result.1 ∈ f.flagged ∧
      (result.2.2 = true → f.holder = some result.1 → Clear f.runtimes v result.2.1)) :
    Steady f' v' := by
  constructor
  · rw [h.shuttingDown, h.holder]
    exact hs.flag
  · intro w hw
    rw [h.holder] at hw
    rw [h.flagged]
    exact hs.holder w hw
  · intro entry hentry
    rw [h.flagged]
    rcases hspawned entry hentry with hold | hnew
    · exact hs.spawned entry hold
    · exact hnew
  · intro result hresult
    rw [h.flagged, h.holder]
    have hold : result.1 ∈ f.flagged ∧
        (result.2.2 = true → f.holder = some result.1 → Clear f.runtimes v result.2.1) := by
      rcases hresults result hresult with hold | hnew
      · exact hs.results result hold
      · exact hnew
    exact ⟨hold.1, fun hok hholder => hp.clear (hs.set hholder) _ (hold.2 hok hholder)⟩

/-- What a call knows stays so when the flag is left alone. -/
theorem Knows.same (h : SameFlag f f') (hp : Preserves f v f' v') (hs : Steady f v)
    (hk : Knows me f v old) : Knows me f' v' old := by
  have hset : ∀ {w}, f'.holder = some w → f.holder = some w := fun hw => h.holder ▸ hw
  have hkeep : f.holder ≠ some me → f'.holder ≠ some me := fun hne hw => hne (hset hw)
  cases old with
  | plain => exact hkeep hk
  | fresh => exact ⟨hkeep hk.1, h.flagged ▸ hk.2⟩
  | stop w => exact ⟨hkeep hk.1, h.flagged ▸ hk.2⟩
  | stopping w session name =>
    refine ⟨hkeep hk.1, h.flagged ▸ hk.2.1, fun hw => ?_⟩
    exact hp.unlaunched (hs.set (hset hw)) _ _ (hk.2.2 (hset hw))
  | confirmed w session =>
    refine ⟨hkeep hk.1, h.flagged ▸ hk.2.1, fun hw => ?_⟩
    exact hp.clear (hs.set (hset hw)) _ (hk.2.2 (hset hw))
  | collecting left =>
    exact ⟨h.holder.trans hk.1, fun s hleft => hp.clear (hs.set hk.1) s (hk.2 s hleft)⟩
  | cleared => exact ⟨h.holder.trans hk.1, fun s => hp.clear (hs.set hk.1) s (hk.2 s)⟩
  | clearing => exact h.holder.trans hk

/-- What a call knows survives the steps of the others. -/
theorem Knows.kept {me' : ℕ} (hne : me' ≠ me) (hs : Steady f v) (hg : Guards me' f v f' v')
    (hk : Knows me f v old) : Knows me f' v' old := by
  have hkeep : f.holder ≠ some me → f'.holder ≠ some me := by
    intro hfree hw
    rcases hg.held me hw with ⟨rfl, -⟩ | hold
    · exact hne rfl
    · exact hfree hold
  -- the shutdown of a stop has set the flag before, so it does not take it again
  have hheld : ∀ {w}, w ∈ f.flagged → f'.holder = some w → f.holder = some w := by
    intro w hmem hw
    rcases hg.held w hw with ⟨rfl, hnot⟩ | hold
    · exact absurd hmem hnot
    · exact hold
  have hclear := fun {w} (hw : f.holder = some w) => hg.preserves.clear (hs.set hw)
  cases old with
  | plain => exact hkeep hk
  | fresh => exact ⟨hkeep hk.1, fun hmem => hk.2 (hg.fresh me hne.symm hmem)⟩
  | stop w => exact ⟨hkeep hk.1, hg.flagged w hk.2⟩
  | stopping w session name =>
    refine ⟨hkeep hk.1, hg.flagged w hk.2.1, fun hw => ?_⟩
    have hold := hheld hk.2.1 hw
    exact hg.preserves.unlaunched (hs.set hold) _ _ (hk.2.2 hold)
  | confirmed w session =>
    refine ⟨hkeep hk.1, hg.flagged w hk.2.1, fun hw => ?_⟩
    have hold := hheld hk.2.1 hw
    exact hclear hold _ (hk.2.2 hold)
  | collecting left =>
    exact ⟨hg.holds me hne.symm hk.1, fun s hleft => hclear hk.1 s (hk.2 s hleft)⟩
  | cleared => exact ⟨hg.holds me hne.symm hk.1, fun s => hclear hk.1 s (hk.2 s)⟩
  | clearing => exact hg.holds me hne.symm hk

theorem clear_of_not_mem_ownedSessions (ho : Ours host sh) {s : S}
    (h : s ∉ (sh.ownedSessions host).map Prod.fst) : Clear sh.runtimes sh.toRecords s := by
  intro record hget
  have hrecord := ho s record hget
  have hfree : record.launch.isSome = false ∧ Idle sh.runtimes record := by
    by_cases howned : (sh.manifest record.id).hostInstance = host.hostInstance
    · have howns : sh.ownsProcess record = false := by
        by_contra howns
        refine h (List.mem_map.2 ⟨(s, (sh.manifest record.id).generation), ?_, rfl⟩)
        refine List.mem_map.2 ⟨(s, record), List.mem_filter.2 ⟨OrdMap.get?_eq_some.1 hget, ?_⟩, rfl⟩
        simpa [Shared.owned, howned] using howns
      simp only [Shared.ownsProcess, Bool.or_eq_false_iff] at howns
      refine ⟨howns.1.1, fun name hname => ?_⟩
      obtain ⟨runtime, hruntime⟩ := Option.isSome_iff_exists.1 (hrecord.named name hname)
      refine (Option.any_eq_true _ _).2 ⟨runtime, hruntime, ?_⟩
      have hnone := howns.1.2
      simp only [Shared.runtimeOf, hname, Option.bind_some, hruntime, Option.any_some,
        Bool.or_eq_false_iff] at hnone
      simp [Runtime.released, hnone.1, Option.isSome_eq_false_iff.1 hnone.2]
    · constructor
      · by_contra hsome
        exact howned (hrecord.owned (.inl (Bool.not_eq_false _ ▸ hsome)))
      · by_contra hbusy
        exact howned (hrecord.owned (.inr hbusy))
  exact ⟨by simpa using hfree.1, hfree.2⟩

theorem Knows.free (hk : Knows me f v old) (h : ¬ old.active) : f.holder ≠ some me := by
  cases old with
  | plain => exact hk
  | fresh => exact hk.1
  | stop w => exact hk.1
  | stopping w session name => exact hk.1
  | confirmed w session => exact hk.1
  | collecting left => exact absurd trivial h
  | cleared => exact absurd trivial h
  | clearing => exact absurd trivial h

theorem Knows.holds (hk : Knows me f v old) (h : old.active) : f.holder = some me := by
  cases old with
  | collecting left => exact hk.1
  | cleared => exact hk.1
  | clearing => exact hk
  | _ => exact h.elim

/-- The shutdown sets the flag: the sessions that it does not stop have nothing to stop. -/
theorem steady_request (ho : Ours host sh) (hs : Steady (flags sh) sh.toRecords)
    (hfree : me ∉ sh.flagged) (hflag : sh.shuttingDown = false)
    (hf : f' = { flags sh with
      shuttingDown := true
      holder := some me
      flagged := me :: sh.flagged }) :
    Steady f' sh.toRecords ∧
      Knows me f' sh.toRecords (.collecting ((sh.ownedSessions host).map Prod.fst)) ∧
      Guards me (flags sh) sh.toRecords f' sh.toRecords := by
  have hholder : sh.holder = none := by
    have := hs.flag
    rw [show (flags sh).shuttingDown = sh.shuttingDown from rfl, hflag] at this
    have hnone : (flags sh).holder = none := by simpa using this.symm
    exact hnone
  subst hf
  refine ⟨⟨rfl, ?_, ?_, ?_⟩, ⟨rfl, fun s => clear_of_not_mem_ownedSessions ho⟩, ?_⟩
  · rintro w ⟨⟩
    exact List.mem_cons_self ..
  · intro entry hentry
    exact List.mem_cons_of_mem _ (hs.spawned entry hentry)
  · intro result hresult
    have hmem := (hs.results result hresult).1
    refine ⟨List.mem_cons_of_mem _ hmem, ?_⟩
    -- the results of this shutdown are all still to come
    rintro - ⟨⟩
    exact absurd hmem hfree
  · refine ⟨fun w hw => List.mem_cons_of_mem _ hw, fun w hne hw => ?_, fun w _ hw => ?_, ?_, ?_⟩
    · exact (List.mem_cons.1 hw).resolve_left hne
    · cases hholder.symm.trans hw
    · rintro w ⟨⟩
      exact .inl ⟨rfl, hfree⟩
    · exact ⟨fun _ _ h => h, fun _ _ _ h => h⟩

/-- The flag is cleared, by the shutdown that holds it or when none does. -/
theorem steady_clear (hs : Steady (flags sh) sh.toRecords)
    (hcond : sh.holder = none ∨ sh.holder = some me)
    (hp : Preserves (flags sh) sh.toRecords f' v')
    (hf : f' = { flags sh with shuttingDown := false, holder := none }) :
    Steady f' v' ∧ Knows me f' v' .plain ∧ Guards me (flags sh) sh.toRecords f' v' := by
  subst hf
  refine ⟨⟨rfl, ?_, hs.spawned, ?_⟩, ?_, ?_⟩
  · rintro w ⟨⟩
  · intro result hresult
    refine ⟨(hs.results result hresult).1, ?_⟩
    rintro - ⟨⟩
  · rintro ⟨⟩
  · refine ⟨fun _ hw => hw, fun _ _ hw => hw, fun w hne hw => ?_, ?_, hp⟩
    · rcases hcond with hnone | hsome
      · cases hnone.symm.trans hw
      · exact absurd (Option.some.inj (hw.symm.trans hsome)) hne
    · rintro w ⟨⟩

/-- A step keeps the flag with its holder. -/
theorem steady_move (ho : Ours host sh) (hs : Steady (flags sh) sh.toRecords)
    (hk : Knows me (flags sh) sh.toRecords old) (hp : Preserves (flags sh) sh.toRecords f' v')
    (h : Move host me sh v' old f' new) :
    Steady f' v' ∧ Knows me f' v' new ∧ Guards me (flags sh) sh.toRecords f' v' := by
  -- the steps that leave the flag alone
  have hsame : SameFlag (flags sh) f' →
      (∀ entry ∈ f'.spawned, entry ∈ sh.spawned ∨ entry.2.2 ∈ sh.flagged) →
      (∀ result ∈ f'.results, result ∈ sh.results ∨ result.1 ∈ sh.flagged ∧
        (result.2.2 = true → sh.holder = some result.1 →
          Clear sh.runtimes sh.toRecords result.2.1)) →
      (Knows me f' v' old → Knows me f' v' new) →
      Steady f' v' ∧ Knows me f' v' new ∧ Guards me (flags sh) sh.toRecords f' v' :=
    fun hflag hspawned hresults hknows =>
      ⟨hflag.steady hp hs hspawned hresults, hknows (hk.same hflag hp hs), hflag.guards hp⟩
  cases h with
  | same => exact hsame ⟨rfl, rfl, rfl⟩ (fun _ => .inl) (fun _ => .inl) id
  | leave hactive =>
    exact hsame ⟨rfl, rfl, rfl⟩ (fun _ => .inl) (fun _ => .inl) fun hk' => hk'.free hactive
  | become name state hbecome => exact hsame ⟨rfl, rfl, rfl⟩ (fun _ => .inl) (fun _ => .inl) id
  | started name state hnone => exact hsame ⟨rfl, rfl, rfl⟩ (fun _ => .inl) (fun _ => .inl) id
  | spawned session generation w hmem =>
    refine hsame ⟨rfl, rfl, rfl⟩ (fun _ hentry => .inl (List.mem_of_mem_erase hentry))
      (fun _ => .inl) fun hk' => ⟨hk'.1, hs.spawned _ hmem⟩
  | stopping w session name hu =>
    refine hsame ⟨rfl, rfl, rfl⟩ (fun _ => .inl) (fun _ => .inl) fun hk' => ⟨hk'.1, hk'.2, ?_⟩
    exact fun hw => hp.unlaunched (hs.set hw) name session hu
  | found w session hclear =>
    refine hsame ⟨rfl, rfl, rfl⟩ (fun _ => .inl) (fun _ => .inl) fun hk' => ⟨hk'.1, hk'.2, ?_⟩
    exact fun hw => hp.clear (hs.set hw) session hclear
  | confirmed w session name hreleased =>
    refine hsame ⟨rfl, rfl, rfl⟩ (fun _ => .inl) (fun _ => .inl) fun hk' => ⟨hk'.1, hk'.2.1, ?_⟩
    intro hw
    refine (hk'.2.2 hw).mono fun name' hname => ?_
    rw [hname]
    exact hreleased
  | unconfirmed w session name =>
    exact hsame ⟨rfl, rfl, rfl⟩ (fun _ => .inl) (fun _ => .inl) fun hk' => ⟨hk'.1, hk'.2.1⟩
  | failed w session =>
    refine hsame ⟨rfl, rfl, rfl⟩ (fun _ => .inl) (fun result hresult => ?_) fun hk' => hk'.1
    rcases List.mem_append.1 hresult with hold | hnew
    · exact .inl hold
    · cases List.mem_singleton.1 hnew
      exact .inr ⟨hk.2, by simp⟩
  | ended w session ok =>
    refine hsame ⟨rfl, rfl, rfl⟩ (fun _ => .inl) (fun result hresult => ?_) fun hk' => hk'.1
    rcases List.mem_append.1 hresult with hold | hnew
    · exact .inl hold
    · cases List.mem_singleton.1 hnew
      exact .inr ⟨hk.2.1, fun _ => hk.2.2⟩
  | request hflag hrecords =>
    subst hrecords
    exact steady_request ho hs hk.2 hflag rfl
  | spawn left left' session generation hleft =>
    refine hsame ⟨rfl, rfl, rfl⟩ (fun entry hentry => ?_) (fun _ => .inl) fun hk' => ?_
    · rcases List.mem_cons.1 hentry with rfl | hold
      · exact .inr (hs.holder me hk.1)
      · exact .inl hold
    · exact ⟨hk'.1, fun s hs' => hk'.2 s fun hmem => hs' (hleft s hmem)⟩
  | unspawned left left' hleft =>
    refine hsame ⟨rfl, rfl, rfl⟩ (fun _ => .inl) (fun _ => .inl) fun hk' => ?_
    exact ⟨hk'.1, fun s hs' => hk'.2 s fun hmem => hs' (hleft s hmem)⟩
  | collect left left' session ok hmem hleft =>
    refine hsame ⟨rfl, rfl, rfl⟩ (fun _ => .inl)
      (fun _ hresult => .inl (List.mem_of_mem_erase hresult)) fun hk' => ⟨hk'.1, fun s hs' => ?_⟩
    by_cases hs'' : s ∈ left
    · obtain ⟨rfl, hok⟩ := (hleft s hs'').resolve_left hs'
      exact hp.clear (hs.set hk.1) s ((hs.results _ hmem).2 hok hk.1)
    · exact hk'.2 s hs''
  | cleared =>
    refine hsame ⟨rfl, rfl, rfl⟩ (fun _ => .inl) (fun _ => .inl) fun hk' => ⟨hk'.1, fun s => ?_⟩
    exact hk'.2 s List.not_mem_nil
  | fail hactive =>
    exact hsame ⟨rfl, rfl, rfl⟩ (fun _ => .inl) (fun _ => .inl) fun hk' => hk'.holds hactive
  | clear old hcond =>
    refine steady_clear hs ?_ hp rfl
    rcases hcond with rfl | hcond
    · exact .inr hk
    · exact hcond

end

/-! ### Runs -/

section
variable {host : Identity S} {me : ℕ} {input : Input S} {sh sh' : Shared S} {call call' : Call S}

theorem preserves {d d' : Duty S} (hm : Move host me sh sh'.toRecords d (flags sh') d')
    (h : advance host me input sh call = some (sh', call')) :
    Preserves (flags sh) sh.toRecords (flags sh') sh'.toRecords := by
  constructor
  · intro hset s hclear
    exact (unlaunched_effect (unadmitted hset h) (advance_effect h) hclear).mono
      fun _ => released_mono hm
  · intro hset name s hu
    exact unlaunched_effect (unadmitted hset h) (advance_effect h) hu

/-- The invariant of timely runs. -/
abbrev Guarded (host : Identity S) (p : Pool (Shared S) (Call S)) : Prop :=
  p.Holds (fun sh => Lawful host sh.toRecords ∧ Ours host sh ∧ Steady (flags sh) sh.toRecords)
    fun i sh call => Pending i sh.toRecords (role call) ∧ Native host (role call) ∧
      Knows i (flags sh) sh.toRecords (duty call)

theorem guarded_opened {p : Pool (Shared S) (Call S)} (h : Opened host p) : Guarded host p := by
  have hsettled := settled_opened h
  constructor
  · refine ⟨hsettled.shared, ?_, ?_, ?_, ?_, ?_⟩
    · intro s record hget
      rw [(h.records s record hget).1]
      constructor
      · rintro name ⟨⟩
      · rintro ⟨⟩
      · rintro (⟨⟨⟩⟩ | hbusy)
        exact absurd (by rintro name ⟨⟩) hbusy
    · simp [flags, h.shuttingDown, h.holder]
    · simp [flags, h.holder]
    · simp [flags, h.spawned]
    · simp [flags, h.results]
  · intro i
    refine ⟨hsettled.threads i, ?_, ?_⟩
    · rw [h.threads i]
      trivial
    · rw [h.threads i]
      simp [duty, Knows, flags, h.holder, h.flagged]

theorem reach_guarded {p : Pool (Shared S) (Call S)} (h : Reachable host Timely p) :
    Guarded host p := by
  refine Pool.invariant (fun i sh sh' => Kept i sh.toRecords sh'.toRecords ∧
    Guards i (flags sh) sh.toRecords (flags sh') sh'.toRecords) (fun _ => guarded_opened) ?_ ?_ h
  · intro i input sh call sh' call' hinv hassert hcond hstep
    obtain ⟨hl, ho, hs⟩ := hinv
    obtain ⟨hp, hn, hk⟩ := hassert
    have heffect := advance_effect hstep
    have hmove := advance_move hcond hstep
    obtain ⟨hs', hk', hg⟩ := steady_move ho hs hk (preserves hmove hstep) hmove
    exact ⟨⟨hl.effect hp heffect, ours_step hl ho hn hmove hstep, hs'⟩,
      ⟨pending hl hp heffect, native hn heffect, hk'⟩, kept hp heffect, hg⟩
  · intro i j sh sh' call hne hinv hassert hkeep
    obtain ⟨hp, hn, hk⟩ := hassert
    exact ⟨hp.kept hne hkeep.1, hn, hk.kept hne hinv.2.2 hkeep.2⟩

/-- A call that has returned stays where it is. -/
theorem returned_run {cond : Pool (Shared S) (Call S) → ℕ × Input S → Prop}
    {p p' : Pool (Shared S) (Call S)} {i : ℕ} {outcome : Outcome}
    (hr : Run (Pool.step (advance host)) cond p p') (h : p.threads i = .returned outcome) :
    p'.threads i = .returned outcome := by
  induction hr with
  | refl => exact h
  | step l _ _ hstep ih =>
    obtain ⟨sh', call', hadvance, rfl⟩ := Pool.step_eq_some hstep
    by_cases hi : i = l.1
    · subst hi
      rw [ih] at hadvance
      rcases advance_cases hadvance with ⟨hidle, -⟩ | ⟨answers, hproceed⟩ | ⟨stage, hstage, -⟩
      · cases hidle
      · cases hproceed
      · cases hstage
    · simpa [Function.update_of_ne hi] using ih

/-- The host is shut down: no session owns a process or a pending launch, and none gets one. -/
structure ShutDown (host : Identity S) (sh : Shared S) : Prop where
  flag : sh.shuttingDown = true
  launches : ∀ s record, sh.table.get? s = some record → record.launch = none
  processes : ∀ s record name, sh.table.get? s = some record → record.runtime = some name →
    (sh.runtimes name).any Runtime.released
  create : ∀ j request now, sh.start host j (.create request now) = some (sh, .fail .shuttingDown)
  restart : ∀ j session generation,
    sh.start host j (.restart session generation) = some (sh, .fail .shuttingDown)

/-- The host accepts launches. -/
structure Accepting (host : Identity S) (sh : Shared S) : Prop where
  flag : sh.shuttingDown = false
  create : ∀ j request now, ∃ sh' fresh operation, sh.start host j (.create request now) =
    some (sh', .admitting request.session fresh operation none)
  restart : ∀ j session generation,
    sh.start host j (.restart session generation) = some (sh, .replacing session generation)

end

/-- The steps of a shutdown of the adopted host, up to where it waits for the drain. -/
def draining (i : ℕ) : List (ℕ × Input ℕ) :=
  [(i, .shutdown false), (i, .proceed {}), (i, .proceed {}), (i, .proceed {}), (i, .proceed {})]

/-- The drain succeeds, and the shutdown returns. -/
def drained (i ticket : ℕ) : List (ℕ × Input ℕ) :=
  [(9, .writer (.drainBarrier ticket)), (9, .writer .take),
    (9, .writer (.execute ⟨none, .ok, true⟩)), (9, .writer .finish),
    (9, .writer (.drainReturn ticket)), (i, .proceed {}), (i, .proceed {})]

end Paneflow.Host.Shutdown
