import Mathlib.Data.List.Basic
import LamaServer.Lib.Transition

/-!
# The database connection that RAG requests share

`rag_db_` is one client for all HTTP threads. A request finds it with `create_rag_database`,
connects, performs its operations and, if it is a retrieval that gets so far, disconnects.
`connect` takes no lock: its test, its assignments and its call to the database server are
actions of their own, and other threads run between them. The database server is a parameter,
`accepts`: the connection strings it lets in.
-/

namespace LamaServer

/-- The database a client is for. -/
structure DbKey where
  hostName : String
  port : Int
  dbName : String
  deriving DecidableEq, Repr

structure Credentials where
  user : String
  password : String
  deriving DecidableEq, Repr

/-- `postgres_client`; an open connection is the credentials it was opened with. -/
structure PostgresClient where
  key : DbKey
  user : String := "postgres"
  password : String := ""
  conn : Option Credentials := none
  deriving DecidableEq, Repr

namespace PostgresClient

/-- The arguments of a connection string. -/
def connectionString (key : DbKey) (creds : Credentials) : String :=
  "host=" ++ key.hostName ++ " port=" ++ toString key.port ++ " dbname=" ++ key.dbName ++
    (if creds.user.isEmpty then "" else " user=" ++ creds.user) ++
    (if creds.password.isEmpty then "" else " password=" ++ creds.password)

/-- `connect` remembers what is not empty. -/
def remember (client : PostgresClient) (creds : Credentials) : PostgresClient :=
  { client with
    user := if creds.user.isEmpty then client.user else creds.user
    password := if creds.password.isEmpty then client.password else creds.password }

def remembered (client : PostgresClient) : Credentials := ⟨client.user, client.password⟩

/-- `conn_` is set before its status is known. -/
def openConn (client : PostgresClient) : PostgresClient :=
  { client with conn := some client.remembered }

def disconnect (client : PostgresClient) : PostgresClient := { client with conn := none }

/-- The status of `conn_` is `CONNECTION_OK`. -/
def connOk (accepts : String → Bool) (client : PostgresClient) : Bool :=
  client.conn.any fun creds => accepts (connectionString client.key creds)

end PostgresClient

/-- The handlers that use the database. -/
inductive RagHandler where
  /-- `handle_completions_impl_with_rag` -/
  | retrieval
  /-- the handler that chunks documents -/
  | insertion
  /-- `handle_rag_db_admin` -/
  | admin
  deriving DecidableEq, Repr

/-- Where a request is with the client of the given index. -/
inductive RagPhase where
  | arrived
  /-- `create_rag_database` has returned -/
  | created (c : Nat)
  /-- `connect` found no connection -/
  | connecting (c : Nat)
  /-- `connect` has remembered the credentials -/
  | remembered (c : Nat)
  /-- `PQconnectdb` has returned -/
  | opened (c : Nat)
  /-- `connect` has returned, and operations are to come -/
  | operating (c : Nat)
  /-- the last operation has returned -/
  | finished (c : Nat)
  | ended
  deriving DecidableEq, Repr

structure RagRequest where
  handler : RagHandler
  key : DbKey
  creds : Credentials
  phase : RagPhase := .arrived
  deriving DecidableEq, Repr

namespace RagPhase

/-- The client the request has got. -/
def client : RagPhase → Option Nat
  | .created c | .connecting c | .remembered c | .opened c | .operating c | .finished c => some c
  | .arrived | .ended => none

/-- The client that `connect` runs on, past its test. -/
def connectingTo : RagPhase → Option Nat
  | .connecting c | .remembered c | .opened c => some c
  | _ => none

end RagPhase

structure RagServer where
  /-- the clients made so far -/
  clients : List PostgresClient := []
  /-- `rag_db_` -/
  ragDb : Option Nat := none
  requests : List RagRequest := []
  /-- the operations that reached the database: the request and the credentials of the
  connection -/
  operations : List (Nat × Credentials) := []
  deriving DecidableEq, Repr

inductive RagStep where
  | createRagDatabase
  /-- `connect` tests `conn_` -/
  | test
  | remember
  | openConn
  /-- `connect` looks at the status of `conn_` -/
  | check
  /-- an operation, which throws if there is no connection -/
  | operate
  /-- no more operations -/
  | finish
  /-- an error or an exception outside `connect` -/
  | fail
  | disconnect
  /-- the handler returns without disconnecting -/
  | leave
  deriving DecidableEq, Repr

inductive RagAction where
  | request (handler : RagHandler) (key : DbKey) (creds : Credentials)
  /-- the thread of a request takes a step -/
  | step (i : Nat) (a : RagStep)
  deriving DecidableEq, Repr

namespace RagServer

/-- `create_rag_database`, with the index of the client it returns. -/
def createRagDatabase (s : RagServer) (key : DbKey) : RagServer × Nat :=
  match s.ragDb with
  | some c =>
    if (s.clients[c]?).map PostgresClient.key = some key then (s, c)
    else ({ s with clients := s.clients ++ [{ key }], ragDb := s.clients.length },
      s.clients.length)
  | none => ({ s with clients := s.clients ++ [{ key }], ragDb := s.clients.length },
      s.clients.length)

def setPhase (s : RagServer) (i : Nat) (r : RagRequest) (phase : RagPhase) : RagServer :=
  { s with requests := s.requests.set i { r with phase } }

def setClient (s : RagServer) (c : Nat) (client : PostgresClient) : RagServer :=
  { s with clients := s.clients.set c client }

variable (accepts : String → Bool)

/-- A step of request `i`, which is `r` and has got client `c`. -/
def clientStep (s : RagServer) (i : Nat) (r : RagRequest) (c : Nat) (client : PostgresClient)
    (a : RagStep) : Option RagServer :=
  match r.phase, a with
  | .created _, .test =>
    some (s.setPhase i r (if client.conn = none then .connecting c else .operating c))
  | .connecting _, .remember =>
    some ((s.setClient c (client.remember r.creds)).setPhase i r (.remembered c))
  | .remembered _, .openConn => some ((s.setClient c client.openConn).setPhase i r (.opened c))
  | .opened _, .check =>
    if client.connOk accepts then some (s.setPhase i r (.operating c))
    else some ((s.setClient c client.disconnect).setPhase i r .ended)
  | .operating _, .operate =>
    match client.conn with
    | some creds =>
      if client.connOk accepts then some { s with operations := s.operations ++ [(i, creds)] }
      else some (s.setPhase i r .ended)
    | none => some (s.setPhase i r .ended)
  | .operating _, .finish => some (s.setPhase i r (.finished c))
  | .finished _, .disconnect =>
    if r.handler = .retrieval then
      some ((s.setClient c client.disconnect).setPhase i r .ended)
    else none
  | .finished _, .leave =>
    if r.handler = .retrieval then none else some (s.setPhase i r .ended)
  | .created _, .fail | .operating _, .fail | .finished _, .fail => some (s.setPhase i r .ended)
  | _, _ => none

def step (s : RagServer) : RagAction → Option RagServer
  | .request handler key creds =>
    some { s with requests := s.requests ++ [{ handler, key, creds }] }
  | .step i a =>
    s.requests[i]?.bind fun r =>
      match r.phase.client with
      | some c => s.clients[c]?.bind fun client => s.clientStep accepts i r c client a
      | none =>
        match r.phase, a with
        | .arrived, .createRagDatabase =>
          let found := s.createRagDatabase r.key
          some (found.1.setPhase i r (.created found.2))
        | .arrived, .fail => some (s.setPhase i r .ended)
        | _, _ => none

/-- The states of the requests and their clients, in any interleaving. -/
def Reached : RagServer → Prop :=
  Transition.Reachable (· = {}) fun s a s' => s.step accepts a = some s'

/-- The connection string of the request's own credentials is let in. -/
def Accepted (r : RagRequest) : Prop :=
  accepts (PostgresClient.connectionString r.key r.creds) = true

/-- No request is in the way of the step of another: `connect` finds no connection or a good one
of the request's own credentials, and no other credentials on their way to one; an empty user or
password does not fall back on a remembered one; nobody disconnects while another operates. -/
def separate (s : RagServer) : RagAction → Bool
  | .request _ _ _ => true
  | .step i a =>
    s.requests[i]?.all fun r => r.phase.client.all fun c => s.clients[c]?.all fun client =>
      match a with
      | .test =>
        (client.conn = none ∨ client.conn = some r.creds ∧ client.connOk accepts) ∧
          ∀ r' ∈ s.requests, r'.phase.connectingTo = some c → r'.creds = r.creds
      | .remember =>
        (r.creds.user.isEmpty → client.user = r.creds.user) ∧
          (r.creds.password.isEmpty → client.password = r.creds.password)
      | .disconnect => ∀ r' ∈ s.requests, r'.phase ≠ .operating c
      | _ => true

end RagServer

end LamaServer
