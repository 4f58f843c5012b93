import Mathlib.Tactic.Set
import LamaServer.Chat

/-!
# The reasoning in front of a reply

The expression of `handle_think_tag_prelude` matches every text. What it takes as reasoning ends
where `</think>` first occurs, wherever that is.
-/

namespace Pattern

variable {α β : Type*} {p : α → Bool}

theorem runStar_all (hp : ∀ c, p c) {k : List α → Option β} (hk : (k []).isSome) :
    ∀ t, runStar p k t = k []
  | [] => rfl
  | c :: t => by
    obtain ⟨b, hb⟩ := Option.isSome_iff_exists.1 hk
    rw [runStar, if_pos (hp c), runStar_all hp hk t, hb, Option.some_or]

end Pattern

namespace LamaServer

open Pattern ChatRegex

/-- The first `word` is found by the fewest characters in front of it. -/
theorem runLazy_indexOf {β : Type*} {word : Text} {f : Text → Option β} {k : Text → Option β}
    (hk : ∀ u, k u = if word <+: u then f u else none) (hf : ∀ u, (f u).isSome) :
    ∀ t, runLazy anyChar k t = (Text.indexOf word t).bind fun i => f (t.drop i)
  | [] => by
    rw [runLazy, hk, Text.indexOf]
    by_cases hw : word = [] <;> simp [hw]
  | c :: t => by
    have ih := runLazy_indexOf hk hf t
    obtain ⟨b, hb⟩ := Option.isSome_iff_exists.1 (hf (c :: t))
    rw [runLazy, hk, Text.indexOf, ih]
    by_cases hw : word <+: c :: t
    · simp [hw, hb]
    · simp only [hw, anyChar, List.isPrefixOf_iff_prefix]
      cases Text.indexOf word t <;> simp

/-- A text without the tag in front of it. -/
def dropThinkTag (t : Text) : Text :=
  if utf8 "<think>" <+: t then t.drop (utf8 "<think>").length else t

/-- The reasoning, and what is behind it. -/
def thinkParts (t : Text) : Text × Text :=
  match Text.indexOf (utf8 "</think>") t with
  | some i => (stringStrip (dropThinkTag (t.take i)), t.drop (i + (utf8 "</think>").length))
  | none => ([], t)

/-- A tag in front does not matter for where the closing tag is. -/
theorem indexOf_thinkTag (t : Text) : Text.indexOf (utf8 "</think>") (utf8 "<think>" ++ t) =
    (Text.indexOf (utf8 "</think>") t).map (· + (utf8 "<think>").length) := by
  have hclose : utf8 "</think>" = [60, 47, 116, 104, 105, 110, 107, 62] := by decide
  have hopen : utf8 "<think>" = [60, 116, 104, 105, 110, 107, 62] := by decide
  rw [hclose, hopen]
  simp only [List.cons_append, List.nil_append, Text.indexOf, List.isPrefixOf, List.length_cons,
    List.length_nil]
  cases Text.indexOf [60, 47, 116, 104, 105, 110, 107, 62] t <;> simp

/-- The expression behind the opening tag. -/
theorem run_closeTag {β : Type*} (k : Behind UInt8 β) (hk : ∀ u g, (k u g).isSome) (v : Text) :
    (seqs [group 2 (lazyStar anyChar), text "</think>"]).run k v [] =
      (Text.indexOf (utf8 "</think>") v).bind fun i =>
        k (v.drop (i + (utf8 "</think>").length)) [(2, v.take i)] := by
  have hrun : (seqs [group 2 (lazyStar anyChar), text "</think>"]).run k v [] =
      runLazy anyChar (fun u => (word (utf8 "</think>")).run k u
        [(2, v.take (v.length - u.length))]) v := rfl
  rw [hrun, runLazy_indexOf (fun u => run_word _) fun u => hk _ _]
  refine congrArg (Option.bind _) (funext fun i => ?_)
  have htake : v.take (v.length - (v.drop i).length) = v.take i := by
    rw [List.take_eq_take_iff, List.length_drop]
    omega
  rw [htake, List.drop_drop]

theorem dropThinkTag_append (t : Text) : dropThinkTag (utf8 "<think>" ++ t) = t := by
  rw [dropThinkTag, if_pos (List.prefix_append ..), List.drop_left]

theorem dropThinkTag_of_not {t : Text} (h : ¬ utf8 "<think>" <+: t) (i : Nat) :
    dropThinkTag (t.take i) = t.take i :=
  if_neg fun hpre => h (hpre.trans (List.take_prefix i t))

/-- What the expression takes apart. -/
theorem fullMatch_reasoningContent (t : Text) : ∃ groups,
    reasoningContent.fullMatch t = some groups ∧
      thinkParts t = (stringStrip (groups.get 2), groups.get 3) := by
  set k : Behind UInt8 (Groups UInt8) := (group 3 (star anyChar)).run
    fun u g => if u.isEmpty then some g else none with hk
  have hrest : ∀ u g, k u g = some ((3, u) :: g) := fun u g => by
    rw [hk, run_group, run_star, runStar_all (p := anyChar) (fun _ => rfl) rfl]
    simp
  set f : Behind UInt8 (Groups UInt8) := fun u g => k u ((1, t.take (t.length - u.length)) :: g)
  have hf : ∀ u g, f u g = some ((3, u) :: (1, t.take (t.length - u.length)) :: g) :=
    fun u g => hrest u _
  have hmatch : reasoningContent.fullMatch t = ((opt (text "<think>")).run
      ((seqs [group 2 (lazyStar anyChar), text "</think>"]).run f) t []).or (k t []) := rfl
  have hclose := run_closeTag f fun u g => by
    rw [hf]
    rfl
  rw [run_opt, text, run_word, hclose t] at hmatch
  by_cases hopen : utf8 "<think>" <+: t
  · obtain ⟨v, rfl⟩ := hopen
    rw [if_pos (List.prefix_append ..), List.drop_left, hclose v, indexOf_thinkTag, hrest] at hmatch
    rw [thinkParts, indexOf_thinkTag]
    rcases hi : Text.indexOf (utf8 "</think>") v with _ | i
    · rw [hi] at hmatch
      exact ⟨_, hmatch, rfl⟩
    · rw [hi, Option.bind_some, hf, Option.some_or, Option.some_or] at hmatch
      refine ⟨_, hmatch, ?_⟩
      have htake : (utf8 "<think>" ++ v).take (i + (utf8 "<think>").length) =
          utf8 "<think>" ++ v.take i := by
        rw [Nat.add_comm, List.take_length_add_append]
      have hdrop : (utf8 "<think>" ++ v).drop (i + (utf8 "<think>").length +
          (utf8 "</think>").length) = v.drop (i + (utf8 "</think>").length) := by
        rw [Nat.add_right_comm, Nat.add_comm _ (utf8 "<think>").length,
          List.drop_length_add_append]
      simp only [Option.map_some, htake, hdrop, dropThinkTag_append]
      rfl
  · rw [if_neg hopen, Option.none_or, hrest] at hmatch
    rw [thinkParts]
    rcases hi : Text.indexOf (utf8 "</think>") t with _ | i
    · rw [hi] at hmatch
      exact ⟨_, hmatch, rfl⟩
    · rw [hi, Option.bind_some, hf, Option.some_or] at hmatch
      refine ⟨_, hmatch, ?_⟩
      simp only [dropThinkTag_of_not hopen]
      rfl

theorem handleThinkTagPrelude_eq (t : Text) (extractReasoning : Bool)
    (restParser : Text → Except ChatError ChatMsg) :
    handleThinkTagPrelude t extractReasoning restParser =
      (restParser (thinkParts t).2).map (addReasoning extractReasoning (thinkParts t).1) := by
  obtain ⟨groups, hgroups, hparts⟩ := fullMatch_reasoningContent t
  rw [handleThinkTagPrelude, hgroups, hparts]
  rfl

end LamaServer
