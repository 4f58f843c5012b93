import LamaServer.Lib.FsPath

/-!
# Changing the model

The `change-model` action of `handle_model_request` and the middleware in front of it. The file
system and loading a model are fields of `ModelEnv`; what a loaded model answers is left out.
-/

namespace LamaServer

open FsPath (Path parentPath append)

/-- `server_state`. -/
inductive ServerState where
  | loadingModel | ready
  deriving DecidableEq, Repr

/-- The type of a file, as `std::filesystem::status` gives it. -/
inductive FileType where
  | notFound | regular | directory | other
  deriving DecidableEq, Repr

/-- How `load_model` and `init` end. -/
inductive LoadResult where
  | loaded | failed
  | threw (what : String)
  deriving DecidableEq, Repr

structure ModelEnv where
  /-- what cannot be examined throws a `filesystem_error` -/
  status : Path → Except String FileType
  load : Path → LoadResult

/-- The state flag and `params.model.path`. -/
structure ModelServer where
  state : ServerState
  path : Path
  deriving DecidableEq, Repr

/-- The field `model` of a request. -/
inductive ModelField where
  | missing
  /-- not a string: the conversion throws -/
  | malformed (what : String)
  | name (name : Path)
  deriving DecidableEq, Repr

inductive ModelResponse where
  | ok (newModelPath : Path)
  | error (message : String)
  deriving DecidableEq, Repr

/-- What a request leaves: the server, the response and the path that was loaded, if any. -/
structure ChangeOutcome where
  server : ModelServer
  response : ModelResponse
  loaded : Option Path := none
  deriving DecidableEq, Repr

namespace ModelEnv

variable (env : ModelEnv)

def fileExists (p : Path) : Except String Bool := (env.status p).map (· ≠ .notFound)

def isDirectory (p : Path) : Except String Bool := (env.status p).map (· = .directory)

def isRegularFile (p : Path) : Except String Bool := (env.status p).map (· = .regular)

/-- The check on the directory of the present model. -/
def lacksDirectory (p : Path) : Except String Bool := do
  if !(← env.fileExists p) then pure true else pure !(← env.isDirectory p)

/-- The check on the file to load. -/
def lacksFile (p : Path) : Except String Bool := do
  if !(← env.fileExists p) then env.isRegularFile p else pure false

end ModelEnv

/-- What is caught. -/
def internalError (what : String) : ModelResponse := .error ("Internal error: " ++ what)

/-- The part of the handler that writes shared state. -/
def loadTarget (env : ModelEnv) (target : Path) : ChangeOutcome :=
  let server : ModelServer := { state := .loadingModel, path := target }
  match env.load target with
  | .failed => ⟨server, .error "Internal Error (model could not be loaded)", some target⟩
  | .threw what => ⟨server, internalError what, some target⟩
  | .loaded => ⟨{ server with state := .ready }, .ok target, some target⟩

/-- `handle_model_change_model`. -/
def handleModelChangeModel (env : ModelEnv) (server : ModelServer) (field : ModelField) :
    ChangeOutcome :=
  match field with
  | .missing => ⟨server, .error "Missing required parameters: model", none⟩
  | .malformed what => ⟨server, internalError what, none⟩
  | .name newModelName =>
    let directoryPath := parentPath server.path
    match env.lacksDirectory directoryPath with
    | .error what => ⟨server, internalError what, none⟩
    | .ok true =>
      ⟨server, .error ("Internal Error (File System directory for present model " ++
        "could not be found)"), none⟩
    | .ok false =>
      let targetFilePath := append directoryPath newModelName
      match env.lacksFile targetFilePath with
      | .error what => ⟨server, internalError what, none⟩
      | .ok true => ⟨server, .error "Internal Error (model could not be located)", none⟩
      | .ok false => loadTarget env targetFilePath

inductive Admission where
  | proceed
  /-- the page that tells to wait -/
  | loadingHtml
  | unavailable (message : String)
  deriving DecidableEq, Repr

/-- `middleware_server_state`. -/
def middlewareServerState (state : ServerState) (reqPath : String) : Admission :=
  match state with
  | .ready => .proceed
  | .loadingModel =>
    if reqPath = "/" ∨ (reqPath.toList.splitOn '.').getLast? = some "html".toList then
      .loadingHtml
    else if reqPath = "/models" ∨ reqPath = "/v1/models" then .proceed
    else .unavailable "Loading model"

/-- A request to `/model-action` that asks for another model. -/
def changeModel (env : ModelEnv) (server : ModelServer) (field : ModelField) : ChangeOutcome :=
  match middlewareServerState server.state "/model-action" with
  | .proceed => handleModelChangeModel env server field
  | _ => ⟨server, .error "Loading model", none⟩

end LamaServer
