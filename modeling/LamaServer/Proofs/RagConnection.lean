import Mathlib.Data.List.Basic
import LamaServer.Lib.Index
import LamaServer.RagConnection

/-!
# Requests on one database client

Requests that connect at the same time carry the same credentials, so whichever of them opens the
connection opens it for all; once a request operates, the connection is its own and stays open.
-/

namespace LamaServer

variable {accepts : String → Bool}

namespace PostgresClient

variable {client : PostgresClient} {creds : Credentials}

@[simp] theorem remember_key : (client.remember creds).key = client.key := rfl

@[simp] theorem remember_conn : (client.remember creds).conn = client.conn := rfl

@[simp] theorem openConn_key : client.openConn.key = client.key := rfl

@[simp] theorem openConn_remembered : client.openConn.remembered = client.remembered := rfl

@[simp] theorem disconnect_key : client.disconnect.key = client.key := rfl

@[simp] theorem disconnect_remembered : client.disconnect.remembered = client.remembered := rfl

theorem connOk_iff : client.connOk accepts ↔
    ∃ creds, client.conn = some creds ∧ accepts (connectionString client.key creds) := by
  simp only [connOk, Option.any_eq_true]

theorem connOk_congr {client' : PostgresClient} (hkey : client'.key = client.key)
    (hconn : client'.conn = client.conn) : client'.connOk accepts = client.connOk accepts := by
  simp only [connOk, hkey, hconn]

/-- With nothing to fall back on, `connect` uses the credentials it is given. -/
theorem remember_remembered (huser : creds.user.isEmpty → client.user = creds.user)
    (hpassword : creds.password.isEmpty → client.password = creds.password) :
    (client.remember creds).remembered = creds := by
  simp only [remember, remembered]
  split_ifs with h₁ h₂ h₂
  · rw [huser h₁, hpassword h₂]
  · rw [huser h₁]
  · rw [hpassword h₂]
  · rfl

end PostgresClient

/-- What a request relies on of its client: the credentials it has put there, and, from the end of
`connect` to the last operation, an open connection of its own. -/
def RagRequest.Relies (accepts : String → Bool) (r : RagRequest) (client : PostgresClient) : Prop :=
  match r.phase with
  | .remembered _ => client.remembered = r.creds
  | .opened _ => client.conn = none ∨ client.conn = some r.creds
  | .operating _ => client.conn = some r.creds ∧ client.connOk accepts = true
  | _ => True

theorem RagPhase.client_of_connectingTo {p : RagPhase} {c : Nat} (h : p.connectingTo = some c) :
    p.client = some c := by
  cases p <;> simp_all [connectingTo, RagPhase.client]

namespace RagServer

variable {s s' : RagServer} {r : RagRequest} {client client' : PostgresClient} {i c : Nat}
  {p : RagPhase}

structure Inv (accepts : String → Bool) (s : RagServer) : Prop where
  relies : ∀ r ∈ s.requests, ∀ c, r.phase.client = some c →
    ∃ client, s.clients[c]? = some client ∧ client.key = r.key ∧ r.Relies accepts client
  alike : ∀ r ∈ s.requests, ∀ r' ∈ s.requests, ∀ c, r.phase.connectingTo = some c →
    (r'.phase.connectingTo = some c ∨ r'.phase = .operating c) → r'.creds = r.creds
  operations : ∀ e ∈ s.operations, ∃ r, s.requests[e.1]? = some r ∧ e.2 = r.creds ∧
    Accepted accepts r

theorem inv_init : Inv accepts {} := ⟨by simp, by simp, by simp⟩

theorem Inv.operations_setPhase (hI : s.Inv accepts) (hi : s.requests[i]? = some r) (p : RagPhase) :
    ∀ e ∈ s.operations, ∃ r₁, (s.requests.set i { r with phase := p })[e.1]? = some r₁ ∧
      e.2 = r₁.creds ∧ Accepted accepts r₁ := by
  intro e he
  obtain ⟨r₀, h₀, hcreds, hacc⟩ := hI.operations e he
  by_cases hei : e.1 = i
  · rw [hei, hi, Option.some.injEq] at h₀
    subst h₀
    exact ⟨{ r with phase := p }, (Index.getElem?_set_iff hi).2 (.inl ⟨hei, rfl⟩), hcreds, hacc⟩
  · exact ⟨r₀, (Index.getElem?_set_iff hi).2 (.inr ⟨hei, h₀⟩), hcreds, hacc⟩

theorem Inv.ended (hI : s.Inv accepts) (hi : s.requests[i]? = some r) :
    (s.setPhase i r .ended).Inv accepts := by
  refine ⟨fun r' hr' c hc => ?_, fun r₁ h₁ r₂ h₂ c hc hc' => ?_,
    hI.operations_setPhase hi .ended⟩
  · rcases Index.mem_set_cases hi hr' with rfl | ⟨j, -, hj⟩
    · cases hc
    · exact hI.relies r' (List.mem_of_getElem? hj) c hc
  · rcases Index.mem_set_cases hi h₁ with rfl | ⟨j₁, -, hj₁⟩
    · cases hc
    · rcases Index.mem_set_cases hi h₂ with rfl | ⟨j₂, -, hj₂⟩
      · rcases hc' with hc' | hc' <;> cases hc'
      · exact hI.alike r₁ (List.mem_of_getElem? hj₁) r₂ (List.mem_of_getElem? hj₂) c hc hc'

/-- A request that changes its phase and its client leaves to the others what they rely on. -/
theorem Inv.move (hI : s.Inv accepts) (hi : s.requests[i]? = some r)
    (hc : s.clients[c]? = some client) (hkey : client'.key = r.key)
    (hkey' : client'.key = client.key) (hp : p.client = some c ∨ p.client = none)
    (hself : ({ r with phase := p } : RagRequest).Relies accepts client')
    (hothers : ∀ r' ∈ s.requests, r'.phase.client = some c → r'.Relies accepts client →
      r'.Relies accepts client')
    (hconnecting : p.connectingTo = some c → ∀ r' ∈ s.requests,
      (r'.phase.connectingTo = some c ∨ r'.phase = .operating c) → r'.creds = r.creds)
    (hoperating : p = .operating c → ∀ r' ∈ s.requests, r'.phase.connectingTo = some c →
      r'.creds = r.creds) :
    ((s.setClient c client').setPhase i r p).Inv accepts := by
  have hpc {d : Nat} (hd : p.client = some d) : d = c := by
    rcases hp with h | h <;> rw [hd] at h
    · exact Option.some.inj h
    · cases h
  refine ⟨fun r' hr' d hd => ?_, fun r₁ h₁ r₂ h₂ d hd hd' => ?_, fun e he => ?_⟩
  · rcases Index.mem_set_cases hi hr' with rfl | ⟨j, -, hj⟩
    · obtain rfl := hpc hd
      exact ⟨client', (Index.getElem?_set_iff hc).2 (.inl ⟨rfl, rfl⟩), hkey, hself⟩
    · have hold := List.mem_of_getElem? hj
      obtain ⟨client₀, hc₀, hk, hrel⟩ := hI.relies r' hold d hd
      by_cases hdc : d = c
      · subst hdc
        obtain rfl := Option.some.inj (hc.symm.trans hc₀)
        exact ⟨client', (Index.getElem?_set_iff hc).2 (.inl ⟨rfl, rfl⟩), hkey'.trans hk,
          hothers r' hold hd hrel⟩
      · exact ⟨client₀, (Index.getElem?_set_iff hc).2 (.inr ⟨hdc, hc₀⟩), hk, hrel⟩
  · rcases Index.mem_set_cases hi h₁ with rfl | ⟨j₁, -, hj₁⟩ <;>
      rcases Index.mem_set_cases hi h₂ with rfl | ⟨j₂, -, hj₂⟩
    · rfl
    · obtain rfl := hpc (RagPhase.client_of_connectingTo hd)
      exact hconnecting hd r₂ (List.mem_of_getElem? hj₂) hd'
    · have hr₁ := List.mem_of_getElem? hj₁
      rcases hd' with hd' | hd'
      · obtain rfl := hpc (RagPhase.client_of_connectingTo hd')
        exact (hconnecting hd' r₁ hr₁ (.inl hd)).symm
      · obtain rfl := hpc (by rw [show p = .operating d from hd']; rfl)
        exact (hoperating hd' r₁ hr₁ hd).symm
    · exact hI.alike r₁ (List.mem_of_getElem? hj₁) r₂ (List.mem_of_getElem? hj₂) d hd hd'
  · exact hI.operations_setPhase hi p e he

/-- The same when the request leaves its client as it is. -/
theorem Inv.setPhase (hI : s.Inv accepts) (hi : s.requests[i]? = some r)
    (hc : s.clients[c]? = some client) (hkey : client.key = r.key)
    (hp : p.client = some c ∨ p.client = none)
    (hself : ({ r with phase := p } : RagRequest).Relies accepts client)
    (hconnecting : p.connectingTo = some c → ∀ r' ∈ s.requests,
      (r'.phase.connectingTo = some c ∨ r'.phase = .operating c) → r'.creds = r.creds)
    (hoperating : p = .operating c → ∀ r' ∈ s.requests, r'.phase.connectingTo = some c →
      r'.creds = r.creds) :
    (s.setPhase i r p).Inv accepts := by
  have hmove := hI.move hi hc hkey rfl hp hself (fun _ _ _ h => h) hconnecting hoperating
  rwa [setClient, Index.set_self hc] at hmove

/-- Operating requests have an open connection, so nobody operates on a client without one. -/
theorem Inv.not_operating (hI : s.Inv accepts) (hc : s.clients[c]? = some client)
    (hok : client.connOk accepts = false) {r' : RagRequest} (hr' : r' ∈ s.requests) :
    r'.phase ≠ .operating c := by
  intro hop
  obtain ⟨client₀, hc₀, -, hrel⟩ := hI.relies r' hr' c (by rw [hop]; rfl)
  obtain rfl := Option.some.inj (hc.symm.trans hc₀)
  simp only [RagRequest.Relies, hop] at hrel
  rw [hok] at hrel
  exact absurd hrel.2 (by decide)

/-- Nobody who does not operate relies on the connection being open. -/
theorem Inv.disconnect (hI : s.Inv accepts) (hi : s.requests[i]? = some r)
    (hc : s.clients[c]? = some client) (hkey : client.key = r.key)
    (hno : ∀ r' ∈ s.requests, r'.phase ≠ .operating c) :
    ((s.setClient c client.disconnect).setPhase i r .ended).Inv accepts := by
  refine hI.move hi hc hkey rfl (.inr rfl) trivial (fun r' hr' hd hrel' => ?_)
    (by simp [RagPhase.connectingTo]) (by simp)
  unfold RagRequest.Relies at hrel' ⊢
  split at hrel'
  · exact hrel'
  · exact .inl rfl
  · rename_i e hphase
    obtain rfl : e = c := by simpa [hphase, RagPhase.client] using hd
    exact absurd hphase (hno r' hr')
  · trivial

/-- What `separate` says of a request that has got a client. -/
theorem separate_step {a : RagStep} (hsep : s.separate accepts (.step i a) = true)
    (hi : s.requests[i]? = some r) (hr : r.phase.client = some c)
    (hc : s.clients[c]? = some client) :
    (a = .test → (client.conn = none ∨ client.conn = some r.creds ∧ client.connOk accepts = true) ∧
      ∀ r' ∈ s.requests, r'.phase.connectingTo = some c → r'.creds = r.creds) ∧
    (a = .remember → (client.remember r.creds).remembered = r.creds) ∧
    (a = .disconnect → ∀ r' ∈ s.requests, r'.phase ≠ .operating c) := by
  simp only [separate, hi, hr, hc, Option.all_some] at hsep
  refine ⟨?_, ?_, ?_⟩ <;> rintro rfl <;> simp only [decide_eq_true_eq] at hsep
  · exact hsep
  · exact PostgresClient.remember_remembered hsep.1 hsep.2
  · exact hsep

section Client

variable (hI : s.Inv accepts) (hi : s.requests[i]? = some r) (hc : s.clients[c]? = some client)
  (hkey : client.key = r.key)

include hI hi hc hkey

theorem Inv.test
    (hconn : client.conn = none ∨ client.conn = some r.creds ∧ client.connOk accepts = true)
    (hothers : ∀ r' ∈ s.requests, r'.phase.connectingTo = some c → r'.creds = r.creds) :
    (s.setPhase i r (if client.conn = none then .connecting c else .operating c)).Inv accepts := by
  split_ifs with hnone
  · refine hI.setPhase hi hc hkey (.inl rfl) trivial (fun _ r' hr' h => ?_) (by simp)
    rcases h with h | h
    · exact hothers r' hr' h
    · exact absurd h (hI.not_operating hc (by simp [PostgresClient.connOk, hnone]) hr')
  · exact hI.setPhase hi hc hkey (.inl rfl) (hconn.resolve_left hnone)
      (by simp [RagPhase.connectingTo]) fun _ => hothers

theorem Inv.remember (hphase : r.phase = .connecting c)
    (hself : (client.remember r.creds).remembered = r.creds) :
    ((s.setClient c (client.remember r.creds)).setPhase i r (.remembered c)).Inv accepts := by
  have halike := hI.alike r (List.mem_of_getElem? hi)
  have hconnecting : r.phase.connectingTo = some c := by rw [hphase]; rfl
  refine hI.move hi hc hkey rfl (.inl rfl) hself (fun r' hr' hd hrel' => ?_)
    (fun _ r' hr' => halike r' hr' c hconnecting) (by simp)
  unfold RagRequest.Relies at hrel' ⊢
  split at hrel'
  · rename_i e hphase'
    obtain rfl : e = c := by simpa [hphase', RagPhase.client] using hd
    rw [hself]
    exact (halike r' hr' e hconnecting (.inl (by rw [hphase']; rfl))).symm
  · exact hrel'
  · exact hrel'
  · trivial

theorem Inv.openConn (hphase : r.phase = .remembered c) (hown : client.remembered = r.creds) :
    ((s.setClient c client.openConn).setPhase i r (.opened c)).Inv accepts := by
  have halike := hI.alike r (List.mem_of_getElem? hi)
  have hconnecting : r.phase.connectingTo = some c := by rw [hphase]; rfl
  have hself : client.openConn.conn = some r.creds := congrArg some hown
  refine hI.move hi hc hkey rfl (.inl rfl) (.inr hself) (fun r' hr' hd hrel' => ?_)
    (fun _ r' hr' => halike r' hr' c hconnecting) (by simp)
  unfold RagRequest.Relies at hrel' ⊢
  split at hrel'
  · exact hrel'
  · rename_i e hphase'
    obtain rfl : e = c := by simpa [hphase', RagPhase.client] using hd
    rw [hself, halike r' hr' e hconnecting (.inl (by rw [hphase']; rfl))]
    exact .inr rfl
  · rename_i e hphase'
    obtain rfl : e = c := by simpa [hphase', RagPhase.client] using hd
    rw [← halike r' hr' e hconnecting (.inr hphase')] at hself
    have hcongr : client.openConn.connOk accepts = client.connOk accepts :=
      PostgresClient.connOk_congr rfl (hself.trans hrel'.1.symm)
    exact ⟨hself, hcongr.trans hrel'.2⟩
  · trivial

theorem Inv.check (hphase : r.phase = .opened c)
    (hown : client.conn = none ∨ client.conn = some r.creds) :
    if client.connOk accepts then (s.setPhase i r (.operating c)).Inv accepts
    else ((s.setClient c client.disconnect).setPhase i r .ended).Inv accepts := by
  have halike := hI.alike r (List.mem_of_getElem? hi)
  have hconnecting : r.phase.connectingTo = some c := by rw [hphase]; rfl
  split_ifs with hok
  · have hsome : client.conn = some r.creds := hown.resolve_left fun hnone => by
      simp [PostgresClient.connOk, hnone] at hok
    exact hI.setPhase hi hc hkey (.inl rfl) ⟨hsome, hok⟩ (by simp [RagPhase.connectingTo])
      fun _ r' hr' h => halike r' hr' c hconnecting (.inl h)
  · have hbad : client.connOk accepts = false := by simpa using hok
    exact hI.disconnect hi hc hkey fun r' hr' => hI.not_operating hc hbad hr'

omit hc in
/-- An operation reaches the database with the request's own credentials. -/
theorem Inv.operate (hconn : client.conn = some r.creds) (hok : client.connOk accepts = true) :
    ({ s with operations := s.operations ++ [(i, r.creds)] } : RagServer).Inv accepts := by
  refine ⟨hI.relies, hI.alike, fun e he => ?_⟩
  rcases List.mem_append.1 he with he | he
  · exact hI.operations e he
  · obtain rfl := List.mem_singleton.1 he
    obtain ⟨creds, hcreds, hacc⟩ := PostgresClient.connOk_iff.1 hok
    obtain rfl := Option.some.inj (hconn.symm.trans hcreds)
    exact ⟨r, hi, rfl, by rwa [Accepted, ← hkey]⟩

end Client

theorem Inv.clientStep (hI : s.Inv accepts) {a : RagStep}
    (hsep : s.separate accepts (.step i a) = true) (hi : s.requests[i]? = some r)
    (hr : r.phase.client = some c) (hc : s.clients[c]? = some client)
    (hs : s.clientStep accepts i r c client a = some s') : s'.Inv accepts := by
  obtain ⟨client₀, hc₀, hkey, hrel⟩ := hI.relies r (List.mem_of_getElem? hi) c hr
  obtain rfl := Option.some.inj (hc.symm.trans hc₀)
  obtain ⟨htest, hremember, hdisconnect⟩ := separate_step hsep hi hr hc
  unfold RagServer.clientStep at hs
  split at hs
  · obtain ⟨hconn, hothers⟩ := htest rfl
    obtain rfl := Option.some.inj hs
    exact hI.test hi hc hkey hconn hothers
  · rename_i d hphase
    obtain rfl : d = c := by simpa [hphase, RagPhase.client] using hr
    obtain rfl := Option.some.inj hs
    exact hI.remember hi hc hkey hphase (hremember rfl)
  · rename_i d hphase
    obtain rfl : d = c := by simpa [hphase, RagPhase.client] using hr
    obtain rfl := Option.some.inj hs
    exact hI.openConn hi hc hkey hphase (by simpa only [RagRequest.Relies, hphase] using hrel)
  · rename_i d hphase
    obtain rfl : d = c := by simpa [hphase, RagPhase.client] using hr
    have hcheck := hI.check hi hc hkey hphase (by simpa only [RagRequest.Relies, hphase] using hrel)
    split_ifs at hs hcheck <;> obtain rfl := Option.some.inj hs <;> exact hcheck
  · rename_i d hphase
    obtain ⟨hconn, hok⟩ : client.conn = some r.creds ∧ client.connOk accepts = true := by
      simpa only [RagRequest.Relies, hphase] using hrel
    simp only [hconn, hok, if_true, Option.some.injEq] at hs
    subst hs
    exact hI.operate hi hkey hconn hok
  · obtain rfl := Option.some.inj hs
    exact hI.setPhase hi hc hkey (.inl rfl) trivial (by simp [RagPhase.connectingTo]) (by simp)
  · split_ifs at hs
    obtain rfl := Option.some.inj hs
    exact hI.disconnect hi hc hkey (hdisconnect rfl)
  · split_ifs at hs
    obtain rfl := Option.some.inj hs
    exact hI.ended hi
  · obtain rfl := Option.some.inj hs
    exact hI.ended hi
  · obtain rfl := Option.some.inj hs
    exact hI.ended hi
  · obtain rfl := Option.some.inj hs
    exact hI.ended hi
  · cases hs

theorem createRagDatabase_spec (s : RagServer) (key : DbKey) :
    (s.createRagDatabase key).1.requests = s.requests ∧
    (s.createRagDatabase key).1.operations = s.operations ∧
    (∀ (j : Nat) (x : PostgresClient), s.clients[j]? = some x →
      (s.createRagDatabase key).1.clients[j]? = some x) ∧
    ∃ client, (s.createRagDatabase key).1.clients[(s.createRagDatabase key).2]? = some client ∧
      client.key = key := by
  have hnew : (∀ (j : Nat) (x : PostgresClient), s.clients[j]? = some x →
      (s.clients ++ [({ key } : PostgresClient)])[j]? = some x) ∧
      ∃ client, (s.clients ++ [({ key } : PostgresClient)])[s.clients.length]? = some client ∧
        client.key = key :=
    ⟨fun j x hj => Index.getElem?_concat_iff.2 (.inr hj), { key },
      Index.getElem?_concat_iff.2 (.inl ⟨rfl, rfl⟩), rfl⟩
  unfold createRagDatabase
  split
  · rename_i c hdb
    split_ifs with hkey
    · obtain ⟨client, hc, hkey⟩ := Option.map_eq_some_iff.1 hkey
      exact ⟨rfl, rfl, fun j x hj => hj, client, hc, hkey⟩
    · exact ⟨rfl, rfl, hnew⟩
  · exact ⟨rfl, rfl, hnew⟩

theorem Inv.request (hI : s.Inv accepts) (handler : RagHandler) (key : DbKey)
    (creds : Credentials) :
    Inv accepts { s with requests := s.requests ++ [{ handler, key, creds }] } := by
  refine ⟨fun r hr c hc => ?_, fun r hr r' hr' c hc hc' => ?_, fun e he => ?_⟩
  · rcases List.mem_append.1 hr with hr | hr
    · exact hI.relies r hr c hc
    · obtain rfl := List.mem_singleton.1 hr
      cases hc
  · rcases List.mem_append.1 hr with hr | hr
    · rcases List.mem_append.1 hr' with hr' | hr'
      · exact hI.alike r hr r' hr' c hc hc'
      · obtain rfl := List.mem_singleton.1 hr'
        rcases hc' with hc' | hc' <;> cases hc'
    · obtain rfl := List.mem_singleton.1 hr
      cases hc
  · obtain ⟨r, hr, hcreds, hacc⟩ := hI.operations e he
    exact ⟨r, Index.getElem?_concat_iff.2 (.inr hr), hcreds, hacc⟩

theorem Inv.step (hI : s.Inv accepts) {a : RagAction} (hsep : s.separate accepts a = true)
    (hs : s.step accepts a = some s') : s'.Inv accepts := by
  cases a with
  | request handler key creds =>
    obtain rfl := Option.some.inj hs
    exact hI.request handler key creds
  | step i a =>
    simp only [RagServer.step, Option.bind_eq_some_iff] at hs
    obtain ⟨r, hi, hs⟩ := hs
    split at hs
    · rename_i c hr
      obtain ⟨client, hc, hs⟩ := Option.bind_eq_some_iff.1 hs
      exact hI.clientStep hsep hi hr hc hs
    · split at hs
      · obtain rfl := Option.some.inj hs
        obtain ⟨hreq, hops, hclients, client, hc, hkey⟩ := s.createRagDatabase_spec r.key
        have hI' : (s.createRagDatabase r.key).1.Inv accepts := by
          refine ⟨fun r' hr' d hd => ?_, hreq ▸ hI.alike, hops ▸ hreq ▸ hI.operations⟩
          obtain ⟨client', hc', hrel⟩ := hI.relies r' (hreq ▸ hr') d hd
          exact ⟨client', hclients d client' hc', hrel⟩
        exact hI'.setPhase (hreq ▸ hi) hc hkey (.inl rfl) trivial
          (by simp [RagPhase.connectingTo]) (by simp)
      · obtain rfl := Option.some.inj hs
        exact hI.ended hi
      · cases hs

/-! ## The law and where it fails -/

/-- Every operation reaches the database on a connection of its request's own credentials, which
the server lets in, and a request that operates has such a connection open. -/
structure Isolated (accepts : String → Bool) (s : RagServer) : Prop where
  operations : ∀ e ∈ s.operations, ∃ r, s.requests[e.1]? = some r ∧ e.2 = r.creds ∧
    Accepted accepts r
  connected : ∀ r ∈ s.requests, ∀ c, r.phase = .operating c →
    ∃ client, s.clients[c]? = some client ∧ client.key = r.key ∧ client.conn = some r.creds ∧
      Accepted accepts r

def IsolationLaw : Prop :=
  ∀ (accepts : String → Bool) (s : RagServer), s.Reached accepts → s.Isolated accepts

/-- The states of the runs in which no request is in the way of another. -/
def SeparateReached (accepts : String → Bool) : RagServer → Prop :=
  Transition.Reachable (· = {})
    (Transition.Guarded (fun s a => s.separate accepts a = true)
      fun s a s' => s.step accepts a = some s')

def localDb : DbKey := ⟨"localhost", 5432, "klave_rag"⟩

def goodCreds : Credentials := ⟨"postgres", "admin"⟩

def badCreds : Credentials := ⟨"guest", "guess"⟩

/-- A database server that lets in one user. -/
def letsIn (conninfo : String) : Bool :=
  conninfo = PostgresClient.connectionString localDb goodCreds

/-- All of `connect`, for request `i`. -/
def connectActions (i : Nat) : List RagAction :=
  [.step i .createRagDatabase, .step i .test, .step i .remember, .step i .openConn, .step i .check]

/-- A retrieval, then a request with a wrong password, then another retrieval. -/
def separateActions : List RagAction :=
  [.request .retrieval localDb goodCreds] ++ connectActions 0 ++
    [.step 0 .operate, .step 0 .finish, .step 0 .disconnect,
      .request .insertion localDb badCreds] ++ connectActions 1 ++
    [.request .retrieval localDb goodCreds] ++ connectActions 2 ++ [.step 2 .operate]

def separateExec : Option RagServer :=
  Transition.exec (fun s a => if s.separate letsIn a = true then s.step letsIn a else none) {}
    separateActions

/-- An insertion leaves its connection open; a retrieval with a wrong password reads through it. -/
def sharedActions : List RagAction :=
  [.request .insertion localDb goodCreds] ++ connectActions 0 ++
    [.step 0 .operate, .step 0 .finish, .step 0 .leave, .request .retrieval localDb badCreds,
      .step 1 .createRagDatabase, .step 1 .test, .step 1 .operate]

end RagServer

end LamaServer
