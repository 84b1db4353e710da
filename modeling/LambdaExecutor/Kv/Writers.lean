import LambdaExecutor.Kv.Projects

/-!
# Who changes the entries of a project

An entry is lost with its project, and otherwise it is changed only by a store of a script
which belonged to the project in the database at the moment when it was fetched.
-/

namespace LambdaExecutor.Kv

open Raii Raii.Code Lua Scripts Formats Database

variable {pg : Postgres} {violation : Int → Failure} {J : JsonLibrary} {fuel : Nat}
  {numberText : Number → String} {s next : Service} {t t' : Tables} {e : Event} {info : ScriptInfo}
  {p : Int} {key : String}

theorem gone_of_deleteProjects (h : t.Valid) {gone : Int → Bool}
    (hchanged : (t.deleteProjects gone).kvStorage.lookup (p, key) ≠ t.kvStorage.lookup (p, key)) :
    (t.deleteProjects gone).kvStorage.lookup (p, key) = none ∧ p ∈ t.projects ∧
      p ∉ (t.deleteProjects gone).projects := by
  have hlookup : (t.deleteProjects gone).kvStorage.lookup (p, key) =
      if gone p then none else t.kvStorage.lookup (p, key) := lookup_cascade gone p key t.kvStorage
  have hgone : gone p = true := by
    by_contra hkept
    exact hchanged (hlookup.trans (if_neg hkept))
  rw [if_pos hgone] at hlookup
  refine ⟨hlookup, ?_, fun hmem => ?_⟩
  · rw [hlookup] at hchanged
    obtain ⟨value, hvalue⟩ := Option.ne_none_iff_exists'.mp (Ne.symm hchanged)
    exact h.kvProjects (p, key) value p hvalue rfl
  · exact absurd (mem_deleteProjects_iff.mp hmem).2 (by simp [hgone])

theorem gone_of_statement (h : t.Valid) {st : Statement} (hexecute : t.execute st = some t')
    (hchanged : t'.kvStorage.lookup (p, key) ≠ t.kvStorage.lookup (p, key)) :
    t'.kvStorage.lookup (p, key) = none ∧ p ∈ t.projects ∧ p ∉ t'.projects := by
  cases Tables.effects hexecute with
  | nothing | user | project | script | deleteScript => exact absurd rfl hchanged
  | deleteUser id => exact gone_of_deleteProjects h hchanged
  | deleteProject id => exact gone_of_deleteProjects h hchanged

theorem project_of_storedTable {key' value : String}
    (hchanged : (Engine.storedTable (pg.over violation t) (projectOf info) key' value
      t.kvStorage).lookup (p, key) ≠ t.kvStorage.lookup (p, key)) :
    p = projectOf info ∧ p ∈ t.projects := by
  rw [lookup_storedTable_over] at hchanged
  cases hcolumn : (pg.over violation t).column (projectOf info) key' value with
  | error what =>
    rw [hcolumn] at hchanged
    exact absurd rfl hchanged
  | ok column =>
    rw [hcolumn] at hchanged
    by_cases hsame : projectOf info = p ∧ column = key
    · obtain ⟨rfl, -⟩ := hsame
      exact ⟨rfl, project_of_column hcolumn⟩
    · exact absurd (if_neg hsame) hchanged

theorem changed_cases (h : s.tables.Valid)
    (hstep : s.step pg violation J fuel numberText e = some next)
    (hchanged : next.tables.kvStorage.lookup (p, key) ≠ s.tables.kvStorage.lookup (p, key)) :
    (∃ st, e = .statement st ∧ next.tables.kvStorage.lookup (p, key) = none ∧
      p ∈ s.tables.projects ∧ p ∉ next.tables.projects) ∨
    ∃ i lua info, e = .call i .store lua ∧ s.loaded[i]? = some info ∧ p = projectOf info ∧
      p ∈ s.tables.projects := by
  cases e with
  | statement st =>
    obtain rfl := Option.some.inj hstep
    cases hexecute : s.tables.execute st with
    | none =>
      rw [hexecute] at hchanged
      exact absurd rfl hchanged
    | some t =>
      rw [hexecute] at hchanged
      exact .inl ⟨st, rfl, gone_of_statement h hexecute hchanged⟩
  | fetch id =>
    refine absurd ?_ hchanged
    simp only [Service.step] at hstep
    split at hstep <;> obtain rfl := Option.some.inj hstep <;> rfl
  | call i method lua =>
    obtain ⟨info, hinfo, rfl⟩ := Option.map_eq_some_iff.mp hstep
    cases method with
    | get =>
      rw [Service.call_get] at hchanged
      exact absurd rfl hchanged
    | store =>
      rw [Service.call_store] at hchanged
      cases harguments : storeArguments J fuel numberText lua with
      | done arguments lua' =>
        rw [harguments] at hchanged
        exact .inr ⟨i, lua, info, rfl, hinfo, project_of_storedTable hchanged⟩
      | threw thrown lua' | terminated lua' =>
        rw [harguments] at hchanged
        exact absurd rfl hchanged

theorem fetched_of_loaded {events : List Event}
    (hrun : Steps.run (Service.step pg violation J fuel numberText) .init events = some s)
    (hloaded : info ∈ s.loaded) : ∃ before id after mid, events = before ++ .fetch id :: after ∧
      Steps.run (Service.step pg violation J fuel numberText) .init before = some mid ∧
      fetch mid.tables.database id = .ok info := by
  obtain ⟨before, e, after, mid, next, rfl, hbefore, hstep, hmid, hnext⟩ :=
    Steps.exists_step_of_run (P := fun s => info ∈ s.loaded) (s := Service.init)
      List.not_mem_nil hrun hloaded
  cases e with
  | statement st =>
    obtain rfl := Option.some.inj hstep
    exact absurd hnext hmid
  | call i method lua =>
    obtain ⟨caller, -, rfl⟩ := Option.map_eq_some_iff.mp hstep
    exact absurd hnext hmid
  | fetch id =>
    simp only [Service.step] at hstep
    split at hstep
    · next found hfetch =>
      obtain rfl := Option.some.inj hstep
      obtain hold | rfl : info ∈ mid.loaded ∨ info = found := by simpa using hnext
      · exact absurd hold hmid
      · exact ⟨before, id, after, mid, rfl, hbefore, hfetch⟩
    · obtain rfl := Option.some.inj hstep
      exact absurd hnext hmid

/-- An entry changes in two ways: its project is deleted, or a script which was fetched as one of
the project stores something. -/
theorem entry_changed_by_own_script (pg : Postgres) (violation : Int → Failure) (J : JsonLibrary)
    (fuel : Nat) (numberText : Number → String) (events : List Event) (s : Service)
    (hrun : Steps.run (Service.step pg violation J fuel numberText) .init events = some s)
    {e : Event} {next : Service} (hstep : s.step pg violation J fuel numberText e = some next)
    {p : Int} {key : String}
    (hchanged : next.tables.kvStorage.lookup (p, key) ≠ s.tables.kvStorage.lookup (p, key)) :
    (∃ st, e = .statement st ∧ next.tables.kvStorage.lookup (p, key) = none ∧
      p ∈ s.tables.projects ∧ p ∉ next.tables.projects) ∨
    ∃ i lua info, e = .call i .store lua ∧ s.loaded[i]? = some info ∧ p ∈ s.tables.projects ∧
      ∃ before id after mid row, events = before ++ .fetch id :: after ∧
        Steps.run (Service.step pg violation J fuel numberText) .init before = some mid ∧
        fetch mid.tables.database id = .ok info ∧ mid.tables.scripts.lookup id.toInt = some row ∧
        row.parentProjectId = some p := by
  rcases changed_cases (ok_of_run hrun).valid hstep hchanged with hgone |
    ⟨i, lua, info, rfl, hloaded, rfl, hmem⟩
  · exact .inl hgone
  · obtain ⟨before, id, after, mid, hsplit, hbefore, hfetch⟩ :=
      fetched_of_loaded hrun (List.mem_of_getElem? hloaded)
    obtain ⟨row, hrow, hparent, -⟩ := project_of_fetch (ok_of_run hbefore).valid hfetch
    exact .inr ⟨i, lua, info, rfl, hloaded, hmem, before, id, after, mid, row, hsplit, hbefore,
      hfetch, hrow, hparent⟩

theorem second_value_by_own_script : ∃ s next, runEvents (storesTwice.take 5) = some s ∧
    s.step acceptAll missing textLibrary 1 (fun _ => "") (.call 0 .store
      (Engine.calledWith [] .nil .nil [.string "w", .string "k"])) = some next ∧
    next.tables.kvStorage.lookup (5, "k") ≠ s.tables.kvStorage.lookup (5, "k") ∧
    ∃ (before : List Event) (id : ScriptIdType) (mid : Service) (row : ScriptsRow),
      runEvents before = some mid ∧ .fetch id ∈ storesTwice.take 5 ∧
      mid.tables.scripts.lookup id.toInt = some row ∧ row.parentProjectId = some 5 := by
  have hend : (runEvents (storesTwice.take 5)).map (fun s =>
      ((s.step acceptAll missing textLibrary 1 (fun _ => "") (.call 0 .store
        (Engine.calledWith [] .nil .nil [.string "w", .string "k"]))).map fun next =>
          next.tables.kvStorage.lookup (5, "k"), s.tables.kvStorage.lookup (5, "k"))) =
      some (some (some "w"), some "v") := by
    decide +kernel
  obtain ⟨s, hrun, hs⟩ := Option.map_eq_some_iff.mp hend
  obtain ⟨hafter, hbefore⟩ := Prod.mk.inj hs
  obtain ⟨next, hstep, hnext⟩ := Option.map_eq_some_iff.mp hafter
  have hchanged : next.tables.kvStorage.lookup (5, "k") ≠ s.tables.kvStorage.lookup (5, "k") := by
    rw [hnext, hbefore]
    decide
  refine ⟨s, next, hrun, hstep, hchanged, ?_⟩
  rcases entry_changed_by_own_script acceptAll missing textLibrary 1 (fun _ => "") _ s hrun hstep
    hchanged with ⟨st, he, -⟩ |
    ⟨i, lua, info, -, -, -, before, id, after, mid, row, hsplit, hmid, -, hrow, hparent⟩
  · cases he
  · exact ⟨before, id, mid, row, hmid, hsplit ▸ by simp, hrow, hparent⟩

end LambdaExecutor.Kv
