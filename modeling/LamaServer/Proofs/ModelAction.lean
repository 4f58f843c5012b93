import LamaServer.ModelAction

/-!
# When changing the model is all or nothing

The check that the file exists asks for a file that does not exist and is a regular one, so it never
fails; from there on the flag and the path are written before the model is loaded and stay written.
A failed request then shuts out the requests that could undo it.
-/

namespace LamaServer

open FsPath (Path parentPath append Inside)

variable {env : ModelEnv} {server : ModelServer} {field : ModelField} {p : Path}

/-- A request that fails changes nothing, and what is loaded is a regular file in the directory of
the present model. -/
def AllOrNothing (env : ModelEnv) (server : ModelServer) (h : ChangeOutcome) : Prop :=
  (∀ message, h.response = .error message → h.server = server) ∧
  ∀ p ∈ h.loaded, env.status p = .ok .regular ∧ Inside (parentPath server.path) p

/-- Every request to change the model is all or nothing. -/
def ChangeLaw : Prop := ∀ env server field, AllOrNothing env server (changeModel env server field)

/-- The path that a name stands for. -/
def ModelServer.target (server : ModelServer) (name : Path) : Path :=
  append (parentPath server.path) name

/-- The request gets as far as a file, which has a type. -/
structure Reaches (env : ModelEnv) (server : ModelServer) (field : ModelField) (name : Path)
    (type : FileType) : Prop where
  ready : server.state = .ready
  name_eq : field = .name name
  directory : env.status (parentPath server.path) = .ok .directory
  target : env.status (server.target name) = .ok type

/-- A request that gets as far as a file names a regular file in the directory, and it loads. -/
def LoadsSafely (env : ModelEnv) (server : ModelServer) (field : ModelField) : Prop :=
  ∀ name type, Reaches env server field name type →
    type = .regular ∧ Inside (parentPath server.path) (server.target name) ∧
    env.load (server.target name) = .loaded

namespace ModelEnv

theorem lacksDirectory_eq_false : env.lacksDirectory p = .ok false ↔
    env.status p = .ok .directory := by
  unfold lacksDirectory fileExists isDirectory
  rcases env.status p with what | (_ | _ | _ | _) <;>
    simp [Except.map, bind, Except.bind, pure, Except.pure]

/-- A file that does not exist is no regular file. -/
theorem lacksFile_eq_false : env.lacksFile p = .ok false ↔ ∃ type, env.status p = .ok type := by
  unfold lacksFile fileExists isRegularFile
  rcases env.status p with what | (_ | _ | _ | _) <;>
    simp [Except.map, bind, Except.bind, pure, Except.pure]

theorem lacksFile_ne_true : env.lacksFile p ≠ .ok true := by
  unfold lacksFile fileExists isRegularFile
  rcases env.status p with what | (_ | _ | _ | _) <;>
    simp [Except.map, bind, Except.bind, pure, Except.pure]

end ModelEnv

theorem middleware_loading :
    middlewareServerState .loadingModel "/model-action" = .unavailable "Loading model" := by
  decide

/-- A request that gets as far as a file has it loaded. -/
theorem changeModel_of_reaches {name : Path} {type : FileType}
    (h : Reaches env server field name type) :
    changeModel env server field = loadTarget env (server.target name) := by
  have hdir := ModelEnv.lacksDirectory_eq_false.2 h.directory
  have hfile := ModelEnv.lacksFile_eq_false.2 ⟨type, h.target⟩
  unfold changeModel
  rw [h.ready, h.name_eq]
  unfold ModelServer.target at hfile ⊢
  simp only [middlewareServerState, handleModelChangeModel, hdir, hfile]

/-- Any other is turned down before anything is written. -/
theorem changeModel_of_not_reaches (h : ∀ name type, ¬Reaches env server field name type) :
    ∃ message, changeModel env server field = ⟨server, .error message, none⟩ := by
  unfold changeModel
  rcases hstate : server.state with _ | _
  · rw [middleware_loading]
    exact ⟨_, rfl⟩
  simp only [middlewareServerState]
  rcases field with _ | what | name
  · exact ⟨_, rfl⟩
  · exact ⟨_, rfl⟩
  simp only [handleModelChangeModel]
  rcases hdir : env.lacksDirectory (parentPath server.path) with what | _ | _
  · exact ⟨_, rfl⟩
  · rcases hfile : env.lacksFile (append (parentPath server.path) name) with what | _ | _
    · exact ⟨_, rfl⟩
    · obtain ⟨type, htype⟩ := ModelEnv.lacksFile_eq_false.1 hfile
      exact absurd ⟨hstate, rfl, ModelEnv.lacksDirectory_eq_false.1 hdir, htype⟩ (h name type)
    · exact absurd hfile ModelEnv.lacksFile_ne_true
  · exact ⟨_, rfl⟩

theorem loadTarget_of_loaded (h : env.load p = .loaded) :
    loadTarget env p = ⟨{ state := .ready, path := p }, .ok p, some p⟩ := by
  unfold loadTarget
  rw [h]

/-- A server that was ready is not left as it was when loading fails. -/
theorem load_of_allOrNothing (hready : server.state = .ready)
    (h : AllOrNothing env server (loadTarget env p)) : env.load p = .loaded := by
  unfold loadTarget at h
  rcases hload : env.load p with _ | _ | what
  · rfl
  · rw [hload] at h
    have := h.1 _ rfl
    rw [← this] at hready
    cases hready
  · rw [hload] at h
    have := h.1 _ rfl
    rw [← this] at hready
    cases hready

/-- A plain name of a regular file that loads is safe to ask for. -/
theorem loadsSafely_of_plainName {name : Path} (hname : FsPath.PlainName name)
    (hdir : parentPath server.path ≠ []) (hregular : env.status (server.target name) = .ok .regular)
    (hload : env.load (server.target name) = .loaded) :
    LoadsSafely env server (.name name) := by
  intro name' type h
  obtain rfl : name = name' := ModelField.name.inj h.name_eq
  have htype : type = .regular := Except.ok.inj (h.target.symm.trans hregular)
  exact ⟨htype, FsPath.inside_append hname hdir, hload⟩

/-! ## Runs -/

/-- The server after some requests to change the model. -/
def runChanges (env : ModelEnv) (server : ModelServer) (fields : List ModelField) : ModelServer :=
  fields.foldl (fun server field => (changeModel env server field).server) server

/-- Every request is safe for the server it finds. -/
def SafeRun (env : ModelEnv) : ModelServer → List ModelField → Prop
  | _, [] => True
  | server, field :: fields =>
    LoadsSafely env server field ∧ SafeRun env (changeModel env server field).server fields

theorem changeModel_ready (hready : server.state = .ready) (h : LoadsSafely env server field) :
    (changeModel env server field).server.state = .ready := by
  by_cases hreaches : ∃ name type, Reaches env server field name type
  · obtain ⟨name, type, hname⟩ := hreaches
    rw [changeModel_of_reaches hname, loadTarget_of_loaded (h name type hname).2.2]
  · simp only [not_exists] at hreaches
    obtain ⟨message, hmessage⟩ := changeModel_of_not_reaches hreaches
    rw [hmessage]
    exact hready

/-- Safe requests leave the server ready. -/
theorem runChanges_ready : ∀ {fields : List ModelField} {server : ModelServer},
    server.state = .ready → SafeRun env server fields →
    (runChanges env server fields).state = .ready
  | [], _, hready, _ => hready
  | field :: fields, server, hready, h => by
    have ih := runChanges_ready (changeModel_ready hready h.1) h.2
    exact ih

/-- A server that was left loading stays so: no request can undo it. -/
theorem runChanges_loading (h : server.state = .loadingModel) : ∀ fields : List ModelField,
    runChanges env server fields = server
  | [] => rfl
  | field :: fields => by
    have hstep : (changeModel env server field).server = server := by
      unfold changeModel
      rw [h, middleware_loading]
    have ih := runChanges_loading h fields
    unfold runChanges at ih ⊢
    rw [List.foldl_cons, hstep, ih]

/-- A file `/m/b` that does not exist and does not load. -/
def missingFile : ModelEnv where
  status p := .ok (if p = [47, 109] then .directory else .notFound)
  load _ := .failed

end LamaServer
