import LambdaExecutor.Kv.Storage
import LambdaExecutor.Library.Constraints
import LambdaExecutor.Library.Steps

/-!
# The tables of the database

Users own projects, scripts and key-value entries belong to projects. The statements
of other services insert, update and delete rows under the constraints of the schema;
what is deleted takes with it what refers to it.
-/

namespace LambdaExecutor.Database

open Kv Scripts

-- ---------------------------------------------------------------------------
-- Rows
-- ---------------------------------------------------------------------------

/-- A row of `users`, without the columns `password` and `token_version`. -/
structure UsersRow where
  login : String
  moneyBalance : ℤ
  deriving DecidableEq

structure ProjectsRow where
  name : String
  ownerId : ℤ
  deriving DecidableEq

structure ScriptsRow where
  path : String
  /-- `NULL` where the script belongs to no project. -/
  parentProjectId : Option ℤ
  sourceCode : String
  deriving DecidableEq

/-- The tables by their primary keys, the columns `id` and (project_id, key). -/
structure Tables where
  users : Sql.Table ℤ UsersRow
  projects : Sql.Table ℤ ProjectsRow
  scripts : Sql.Table ℤ ScriptsRow
  kvStorage : KvTable

def Tables.empty : Tables where
  users := ∅
  projects := ∅
  scripts := ∅
  kvStorage := ∅

def isInt (i : ℤ) : Bool := -2147483648 ≤ i && i < 2147483648

def ScriptsRow.pathInProject (row : ScriptsRow) : Option (ℤ × String) :=
  row.parentProjectId.map fun p => (p, row.path)

def ScriptsRow.parent (_ : ℤ) (row : ScriptsRow) : Option ℤ := row.parentProjectId

def ProjectsRow.owner (_ : ℤ) (row : ProjectsRow) : Option ℤ := some row.ownerId

def kvProject (key : ℤ × String) (_ : String) : Option ℤ := some key.1

namespace Tables

variable (t : Tables)

def database : Scripts.Database where
  rows id := (t.scripts.lookup id).map fun row =>
    { parentProjectId := row.parentProjectId, sourceCode := row.sourceCode }
  versions _ := 0

-- ---------------------------------------------------------------------------
-- Statements
-- ---------------------------------------------------------------------------

def fitsUser (id : ℤ) (row : UsersRow) : Bool :=
  isInt id && Sql.fitsUnique (fun row => some row.login) id row t.users

def fitsProject (id : ℤ) (row : ProjectsRow) : Bool :=
  isInt id && Sql.fitsUnique (fun row => some row.name) id row t.projects &&
    Sql.fitsReference (row.owner id) t.users

def fitsScript (id : ℤ) (row : ScriptsRow) : Bool :=
  isInt id && Sql.fitsUnique ScriptsRow.pathInProject id row t.scripts &&
    Sql.fitsReference (row.parent id) t.projects

def deleteProjects (gone : ℤ → Bool) : Tables where
  users := t.users
  projects := Sql.deleteRows (fun id _ => gone id) t.projects
  scripts := Sql.cascade ScriptsRow.parent gone t.scripts
  kvStorage := Sql.cascade kvProject gone t.kvStorage

/-- The projects that `ON DELETE CASCADE` takes with a user. -/
def isProjectOf (owner id : ℤ) : Bool := (t.projects.lookup id).any fun row => row.ownerId = owner

end Tables

inductive Statement
  | insertUser (id : ℤ) (row : UsersRow)
  | updateUser (id : ℤ) (row : UsersRow)
  | deleteUser (id : ℤ)
  | insertProject (id : ℤ) (row : ProjectsRow)
  | updateProject (id : ℤ) (row : ProjectsRow)
  | deleteProject (id : ℤ)
  | insertScript (id : ℤ) (row : ScriptsRow)
  | updateScript (id : ℤ) (row : ScriptsRow)
  | deleteScript (id : ℤ)

/-- A new row, `none` where the statement fails. -/
def inserted (id : ℤ) (row : α) (fits : Bool) (table : Sql.Table ℤ α) : Option (Sql.Table ℤ α) :=
  if id ∉ table ∧ fits then some (table.insert id row) else none

def updated (id : ℤ) (row : α) (fits : Bool) (table : Sql.Table ℤ α) : Option (Sql.Table ℤ α) :=
  if id ∉ table then some table else if fits then some (table.insert id row) else none

def Tables.execute (t : Tables) : Statement → Option Tables
  | .insertUser id row =>
    (inserted id row (t.fitsUser id row) t.users).map fun users => { t with users }
  | .updateUser id row =>
    (updated id row (t.fitsUser id row) t.users).map fun users => { t with users }
  | .deleteUser id =>
    some { t.deleteProjects (t.isProjectOf id) with
      users := Sql.deleteRows (fun other _ => other = id) t.users }
  | .insertProject id row =>
    (inserted id row (t.fitsProject id row) t.projects).map fun projects => { t with projects }
  | .updateProject id row =>
    (updated id row (t.fitsProject id row) t.projects).map fun projects => { t with projects }
  | .deleteProject id => some (t.deleteProjects fun other => other = id)
  | .insertScript id row =>
    (inserted id row (t.fitsScript id row) t.scripts).map fun scripts => { t with scripts }
  | .updateScript id row =>
    (updated id row (t.fitsScript id row) t.scripts).map fun scripts => { t with scripts }
  | .deleteScript id =>
    some { t with scripts := Sql.deleteRows (fun other _ => other = id) t.scripts }

-- ---------------------------------------------------------------------------
-- What the constraints keep
-- ---------------------------------------------------------------------------

/-- Every row refers to rows that exist, and unique columns are unique. -/
structure Tables.Valid (t : Tables) : Prop where
  logins : Sql.Unique (fun row : UsersRow => some row.login) t.users
  names : Sql.Unique (fun row : ProjectsRow => some row.name) t.projects
  paths : Sql.Unique ScriptsRow.pathInProject t.scripts
  owners : Sql.References ProjectsRow.owner t.projects t.users
  parents : Sql.References ScriptsRow.parent t.scripts t.projects
  kvProjects : Sql.References kvProject t.kvStorage t.projects
  projectIds : ∀ id ∈ t.projects, isInt id

theorem Tables.valid_empty : Tables.empty.Valid where
  logins := Sql.unique_empty
  names := Sql.unique_empty
  paths := Sql.unique_empty
  owners := Sql.references_empty
  parents := Sql.references_empty
  kvProjects := Sql.references_empty
  projectIds id h := absurd h (AList.notMem_empty id)

theorem inserted_eq_some {id : ℤ} {row : α} {fits : Bool} {table table' : Sql.Table ℤ α}
    (h : inserted id row fits table = some table') : fits ∧ table' = table.insert id row := by
  unfold inserted at h
  split at h
  · next hnew => exact ⟨hnew.2, (Option.some.inj h).symm⟩
  · cases h

theorem updated_eq_some {id : ℤ} {row : α} {fits : Bool} {table table' : Sql.Table ℤ α}
    (h : updated id row fits table = some table') :
    table' = table ∨ fits ∧ table' = table.insert id row := by
  unfold updated at h
  split at h
  · exact .inl (Option.some.inj h).symm
  · split at h
    · next hfits => exact .inr ⟨hfits, (Option.some.inj h).symm⟩
    · cases h

/-- What a statement does to the tables: it writes one row that fits, deletes rows, or nothing. -/
inductive Effects (t : Tables) : Tables → Prop
  | nothing : Effects t t
  | user (id : ℤ) (row : UsersRow) (h : t.fitsUser id row) :
      Effects t { t with users := t.users.insert id row }
  | project (id : ℤ) (row : ProjectsRow) (h : t.fitsProject id row) :
      Effects t { t with projects := t.projects.insert id row }
  | script (id : ℤ) (row : ScriptsRow) (h : t.fitsScript id row) :
      Effects t { t with scripts := t.scripts.insert id row }
  | deleteUser (id : ℤ) : Effects t { t.deleteProjects (t.isProjectOf id) with
      users := Sql.deleteRows (fun other _ => other = id) t.users }
  | deleteProject (id : ℤ) : Effects t (t.deleteProjects fun other => other = id)
  | deleteScript (id : ℤ) :
      Effects t { t with scripts := Sql.deleteRows (fun other _ => other = id) t.scripts }

theorem Tables.effects {t t' : Tables} {st : Statement} (h : t.execute st = some t') :
    Effects t t' := by
  cases st with
  | insertUser id row =>
    obtain ⟨users, hinsert, rfl⟩ := Option.map_eq_some_iff.mp h
    obtain ⟨hfits, rfl⟩ := inserted_eq_some hinsert
    exact .user id row hfits
  | updateUser id row =>
    obtain ⟨users, hupdate, rfl⟩ := Option.map_eq_some_iff.mp h
    rcases updated_eq_some hupdate with rfl | ⟨hfits, rfl⟩
    · exact .nothing
    · exact .user id row hfits
  | insertProject id row =>
    obtain ⟨projects, hinsert, rfl⟩ := Option.map_eq_some_iff.mp h
    obtain ⟨hfits, rfl⟩ := inserted_eq_some hinsert
    exact .project id row hfits
  | updateProject id row =>
    obtain ⟨projects, hupdate, rfl⟩ := Option.map_eq_some_iff.mp h
    rcases updated_eq_some hupdate with rfl | ⟨hfits, rfl⟩
    · exact .nothing
    · exact .project id row hfits
  | insertScript id row =>
    obtain ⟨scripts, hinsert, rfl⟩ := Option.map_eq_some_iff.mp h
    obtain ⟨hfits, rfl⟩ := inserted_eq_some hinsert
    exact .script id row hfits
  | updateScript id row =>
    obtain ⟨scripts, hupdate, rfl⟩ := Option.map_eq_some_iff.mp h
    rcases updated_eq_some hupdate with rfl | ⟨hfits, rfl⟩
    · exact .nothing
    · exact .script id row hfits
  | deleteUser id =>
    obtain rfl := Option.some.inj h
    exact .deleteUser id
  | deleteProject id =>
    obtain rfl := Option.some.inj h
    exact .deleteProject id
  | deleteScript id =>
    obtain rfl := Option.some.inj h
    exact .deleteScript id

variable {t t' : Tables}

theorem mem_deleteProjects_iff {gone : ℤ → Bool} {id : ℤ} :
    id ∈ (t.deleteProjects gone).projects ↔ id ∈ t.projects ∧ gone id = false := by
  rw [← AList.lookup_isSome (s := t.projects), Option.isSome_iff_exists, ← exists_and_right]
  exact Sql.mem_deleteRows_iff

theorem Tables.Valid.deleteProjects (h : t.Valid) (gone : ℤ → Bool) :
    (t.deleteProjects gone).Valid where
  logins := h.logins
  names := h.names.deleteRows _
  paths := h.paths.deleteRows _
  owners := h.owners.deleteRows _
  parents := h.parents.cascade fun _ hmem hstays => mem_deleteProjects_iff.mpr ⟨hmem, hstays⟩
  kvProjects := h.kvProjects.cascade fun _ hmem hstays => mem_deleteProjects_iff.mpr ⟨hmem, hstays⟩
  projectIds id hid := h.projectIds id (mem_deleteProjects_iff.mp hid).1

theorem Tables.Valid.deleteUser (h : t.Valid) (id : ℤ) :
    Tables.Valid { t.deleteProjects (t.isProjectOf id) with
      users := Sql.deleteRows (fun other _ => other = id) t.users } := by
  have hprojects := h.deleteProjects (t.isProjectOf id)
  refine { hprojects with
    logins := h.logins.deleteRows _, owners := fun p row owner hrow howner => ?_ }
  obtain ⟨hold, hstays⟩ := Sql.lookup_deleteRows_eq_some.mp hrow
  obtain ⟨user, huser⟩ := Option.isSome_iff_exists.mp
    (AList.lookup_isSome.mpr (h.owners p row owner hold howner))
  have hother : row.ownerId ≠ id := by
    intro heq
    simp [Tables.isProjectOf, hold, heq] at hstays
  refine Sql.mem_deleteRows_iff.mpr ⟨user, huser, decide_eq_false ?_⟩
  rwa [← Option.some.inj howner]

theorem Tables.Valid.effects (h : t.Valid) (heffects : Effects t t') : t'.Valid := by
  cases heffects with
  | nothing => exact h
  | user id row hfits =>
    simp only [Tables.fitsUser, Bool.and_eq_true] at hfits
    refine { h with logins := h.logins.insert hfits.2, owners := h.owners.mono fun k hk => ?_ }
    exact (AList.mem_insert _).mpr (.inr hk)
  | project id row hfits =>
    simp only [Tables.fitsProject, Bool.and_eq_true] at hfits
    obtain ⟨⟨hint, hname⟩, howner⟩ := hfits
    have hmore : ∀ k, k ∈ t.projects → k ∈ t.projects.insert id row :=
      fun k hk => (AList.mem_insert _).mpr (.inr hk)
    refine { h with
      names := h.names.insert hname, owners := h.owners.insert howner,
      parents := h.parents.mono hmore, kvProjects := h.kvProjects.mono hmore,
      projectIds := fun k hk => ?_ }
    rcases (AList.mem_insert _).mp hk with rfl | hold
    · exact hint
    · exact h.projectIds k hold
  | script id row hfits =>
    simp only [Tables.fitsScript, Bool.and_eq_true] at hfits
    exact { h with paths := h.paths.insert hfits.1.2, parents := h.parents.insert hfits.2 }
  | deleteUser id => exact h.deleteUser id
  | deleteProject id => exact h.deleteProjects _
  | deleteScript id =>
    exact { h with paths := h.paths.deleteRows _, parents := h.parents.deleteRows _ }

theorem Tables.Valid.execute (h : t.Valid) {st : Statement} (hexecute : t.execute st = some t') :
    t'.Valid := h.effects (Tables.effects hexecute)

end LambdaExecutor.Database
