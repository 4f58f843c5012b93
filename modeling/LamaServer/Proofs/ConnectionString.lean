import LamaServer.ConnectionString
import LamaServer.Lib.Conninfo
import LamaServer.Lib.Utf8
import LamaServer.Proofs.GrammarParser
import LamaServer.RagConnection

/-!
# What a connection string says

The values go into the string as they are, so it is as long as its settings without quotes: whoever
reads all of them from it has read no quotes. A value that has to be quoted is therefore not read
back, and it may bring settings of its own.
-/

namespace LamaServer

open Conninfo

/-- The settings of a connection: its address, and the credentials, of which an empty one need not
be set. -/
structure ConnectionOf (host : Text) (port : Int) (dbname user password : Text)
    (settings : List Conninfo.Setting) : Prop where
  host_eq : Conninfo.valueOf settings hostKeyword = some host
  port_eq : Conninfo.valueOf settings portKeyword = some (decimal port)
  dbname_eq : Conninfo.valueOf settings dbnameKeyword = some dbname
  user_eq : (Conninfo.valueOf settings userKeyword).getD [] = user
  password_eq : (Conninfo.valueOf settings passwordKeyword).getD [] = password
  /-- no other keyword -/
  keywords : ∀ s ∈ settings,
    s.1 ∈ [hostKeyword, portKeyword, dbnameKeyword, userKeyword, passwordKeyword]

/-- The connection string is read as the values it is made of. -/
def ReadsBack (host : Text) (port : Int) (dbname user password : Text) : Prop :=
  ∃ settings, Conninfo.parse (connectionString host port dbname user password) = some settings ∧
    ConnectionOf host port dbname user password settings

variable {host dbname user password : Text} {port : Int} {ss : List Setting}

/-- The settings that are written. -/
def writtenSettings (host : Text) (port : Int) (dbname user password : Text) : List Setting :=
  [(hostKeyword, host), (portKeyword, decimal port), (dbnameKeyword, dbname)]
    ++ (if user ≠ [] then [(userKeyword, user)] else [])
    ++ if password ≠ [] then [(passwordKeyword, password)] else []

theorem connectionString_eq (host : Text) (port : Int) (dbname user password : Text) :
    connectionString host port dbname user password =
      join (writtenSettings host port dbname user password) := by
  have hequals : ascii '=' = equals := rfl
  have hblank : ascii ' ' = 32 := rfl
  unfold connectionString writtenSettings
  split_ifs <;> simp [join, render, hequals, hblank]

section Utf8

theorem encode_ascii {cs : List Char} (h : ∀ c ∈ cs, c.val.toNat < 0x80) :
    Utf8.encode cs = cs.map fun c => UInt8.ofNat c.toNat := by
  rw [Utf8.encode, ← List.flatMap_singleton' (cs.map _), List.flatMap_map]
  refine List.flatMap_congr fun c hc => ?_
  rw [String.utf8EncodeChar, if_pos (Nat.le_of_lt_succ (h c hc))]
  rfl

theorem encode_digits (n : Nat) : Utf8.encode (Nat.repr n).toList =
    (Nat.toDigits 10 n).map fun c => UInt8.ofNat c.toNat := by
  rw [Nat.toList_repr]
  refine encode_ascii fun c hc => ?_
  have h := Nat.isDigit_of_mem_toDigits (by decide) (by decide) hc
  simp only [Char.isDigit, Bool.and_eq_true, decide_eq_true_eq, UInt32.le_iff_toNat_le] at h
  exact Nat.lt_of_le_of_lt h.2 (by decide)

theorem encode_port : ∀ n : Int, Utf8.encode (toString n).toList = decimal n
  | .ofNat n => encode_digits n
  | .negSucc n => by
    have hstring : toString (Int.negSucc n) = "-" ++ Nat.repr (n + 1) := rfl
    have hneg : Int.negSucc n < 0 := Int.negSucc_lt_zero n
    rw [hstring, String.toList_append, Utf8.encode_append, encode_digits, decimal, if_pos hneg]
    rfl

/-- The bytes of a connection string of `RagConnection`. -/
theorem encode_connectionString (key : DbKey) (creds : Credentials) :
    Utf8.encode (PostgresClient.connectionString key creds).toList =
      connectionString (Utf8.encode key.hostName.toList) key.port (Utf8.encode key.dbName.toList)
        (Utf8.encode creds.user.toList) (Utf8.encode creds.password.toList) := by
  have hempty {s : String} : s.isEmpty = true ↔ Utf8.encode s.toList = [] := by
    rw [String.isEmpty_iff]
    refine ⟨fun h => by rw [h]; rfl, fun h => ?_⟩
    rcases hs : s.toList with _ | ⟨c, cs⟩
    · exact String.toList_eq_nil_iff.1 hs
    · rw [hs, Utf8.encode_cons, List.append_eq_nil_iff] at h
      exact absurd h.1 String.utf8EncodeChar_ne_nil
  unfold PostgresClient.connectionString connectionString
  simp only [String.toList_append, Utf8.encode_append, encode_port, apply_ite String.toList,
    apply_ite Utf8.encode, hempty, ite_not, List.append_assoc, List.cons_append]
  rfl

end Utf8

theorem writtenSettings_nodup : (writtenSettings host port dbname user password).Nodup := by
  have hkeys : ((writtenSettings host port dbname user password).map Prod.fst).Nodup := by
    unfold writtenSettings
    split_ifs <;> (simp only [List.map_append, List.map_cons, List.map_nil]; decide)
  exact hkeys.of_map _

theorem mem_writtenSettings {s : Setting} : s ∈ writtenSettings host port dbname user password ↔
    s = (hostKeyword, host) ∨ s = (portKeyword, decimal port) ∨ s = (dbnameKeyword, dbname) ∨
      user ≠ [] ∧ s = (userKeyword, user) ∨ password ≠ [] ∧ s = (passwordKeyword, password) := by
  unfold writtenSettings
  split_ifs with h1 h2 h2 <;> simp [h1, h2]

theorem writtenSettings_keywords : ∀ s ∈ writtenSettings host port dbname user password,
    s.1 ∈ [hostKeyword, portKeyword, dbnameKeyword, userKeyword, passwordKeyword] := by
  intro s hs
  rcases mem_writtenSettings.1 hs with rfl | rfl | rfl | ⟨-, rfl⟩ | ⟨-, rfl⟩ <;> simp

theorem word_of_keyword : ∀ k ∈ [hostKeyword, portKeyword, dbnameKeyword, userKeyword,
    passwordKeyword], Word k := by
  decide

theorem plain_decimal (n : Int) : Plain (decimal n) := by
  have hdigit : ∀ c ∈ (Nat.toDigits 10 n.natAbs).map (fun c => UInt8.ofNat c.toNat),
      48 ≤ c.toNat ∧ c.toNat ≤ 57 := by
    intro b hb
    obtain ⟨c, hc, rfl⟩ := List.mem_map.1 hb
    have h := Nat.isDigit_of_mem_toDigits (by decide) (by decide) hc
    simp only [Char.isDigit, Bool.and_eq_true, decide_eq_true_eq, UInt32.le_iff_toNat_le] at h
    have hlo : 48 ≤ c.toNat := h.1
    have hhi : c.toNat ≤ 57 := h.2
    rw [UInt8.toNat_ofNat', Nat.mod_eq_of_lt (by omega)]
    exact ⟨hlo, hhi⟩
  have hplain : ∀ c ∈ decimal n, 45 ≤ c.toNat ∧ c.toNat ≤ 57 := by
    intro c hc
    rcases List.mem_append.1 hc with hc | hc
    · split_ifs at hc
      · rw [List.mem_singleton.1 hc]
        decide
      · cases hc
    · obtain ⟨hlo, hhi⟩ := hdigit c hc
      exact ⟨by omega, hhi⟩
  refine ⟨fun hnil => ?_, fun c hc => ?_⟩
  · obtain ⟨-, hnil⟩ := List.append_eq_nil_iff.1 hnil
    exact Nat.toDigits_ne_nil (List.map_eq_nil_iff.1 hnil)
  · obtain ⟨hlo, hhi⟩ := hplain c hc
    simp only [isBlank, quote, backslash, decide_eq_true_eq, UInt8.le_iff_toNat_le, ne_eq,
      ← UInt8.toNat_inj]
    simp
    omega

theorem connectionOf_written : ConnectionOf host port dbname user password
    (writtenSettings host port dbname user password) := by
  refine ⟨?_, ?_, ?_, ?_, ?_, writtenSettings_keywords⟩
  all_goals
    unfold writtenSettings
    by_cases huser : user = [] <;> by_cases hpassword : password = [] <;>
      simp only [huser, hpassword, ne_eq, not_true_eq_false, not_false_eq_true, if_true, if_false]
    all_goals rfl

theorem ConnectionOf.mem (h : ConnectionOf host port dbname user password ss) :
    ∀ s ∈ writtenSettings host port dbname user password, s ∈ ss := by
  have hget {o : Option Text} {v : Text} (ho : o.getD [] = v) (hv : v ≠ []) : o = some v := by
    cases o with
    | none => exact absurd ho.symm hv
    | some w => exact congrArg some ho
  intro s hs
  rcases mem_writtenSettings.1 hs with rfl | rfl | rfl | ⟨huser, rfl⟩ | ⟨hpassword, rfl⟩
  · exact mem_of_valueOf h.host_eq
  · exact mem_of_valueOf h.port_eq
  · exact mem_of_valueOf h.dbname_eq
  · exact mem_of_valueOf (hget h.user_eq huser)
  · exact mem_of_valueOf (hget h.password_eq hpassword)

/-- Exactly the values that need no quotes are read back; an empty user or password is not
written. -/
theorem readsBack_iff (host : Text) (port : Int) (dbname user password : Text) :
    ReadsBack host port dbname user password ↔
      Plain host ∧ Plain dbname ∧ (user = [] ∨ Plain user) ∧ (password = [] ∨ Plain password) := by
  rw [ReadsBack, connectionString_eq]
  refine ⟨fun ⟨ss, hparse, h⟩ => ?_, fun ⟨hhost, hdbname, huser, hpassword⟩ => ?_⟩
  · have hplain := plain_of_parse hparse writtenSettings_nodup h.mem
    refine ⟨hplain (hostKeyword, host) (by simp [mem_writtenSettings]),
      hplain (dbnameKeyword, dbname) (by simp [mem_writtenSettings]),
      or_iff_not_imp_left.2 fun huser => hplain (userKeyword, user) ?_,
      or_iff_not_imp_left.2 fun hpassword => hplain (passwordKeyword, password) ?_⟩
    · simp [mem_writtenSettings, huser]
    · simp [mem_writtenSettings, hpassword]
  · refine ⟨_, parse_join fun s hs => ⟨word_of_keyword _ (writtenSettings_keywords s hs), ?_⟩,
      connectionOf_written⟩
    rcases mem_writtenSettings.1 hs with rfl | rfl | rfl | ⟨hne, rfl⟩ | ⟨hne, rfl⟩
    · exact hhost
    · exact plain_decimal port
    · exact hdbname
    · exact huser.resolve_left hne
    · exact hpassword.resolve_left hne

def injectedUser : Text := "alice dbname=secrets".toList.map ascii

/-- A user name that names another database. -/
theorem not_readsBack : ¬∀ (host : Text) (port : Int) (dbname user password : Text),
    ReadsBack host port dbname user password := by
  intro h
  obtain ⟨ss, hparse, hss⟩ := h [ascii 'h'] 5432 [ascii 'd'] injectedUser []
  have hinjected : (parse (connectionString [ascii 'h'] 5432 [ascii 'd'] injectedUser [])).map
      (valueOf · dbnameKeyword) = some (some ("secrets".toList.map ascii)) := by decide
  rw [hparse, Option.map_some, hss.dbname_eq] at hinjected
  revert hinjected
  decide

end LamaServer
