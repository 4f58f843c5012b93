import Mathlib.Data.List.Infix
import Mathlib.Data.UInt

/-!
# Paths of a POSIX file system

What `std::filesystem` documents of a path, as its bytes: its directory and the path of a name in
it. A path lies in a directory when, with `.` and `..` resolved, it goes on from the directory;
symbolic links are not followed. A plain name always lies in the directory it is looked up in.
-/

namespace FsPath

abbrev Path := List UInt8

/-- `/`. -/
def separator : UInt8 := 47

/-- `.`. -/
def dot : UInt8 := 46

def isAbsolute (p : Path) : Bool := p.head? = some separator

/-- `parent_path`: everything before the last element. -/
def parentPath (p : Path) : Path :=
  if p.all (· = separator) then p
  else
    let dir := ((p.reverse.dropWhile (· ≠ separator)).dropWhile (· = separator)).reverse
    if dir = [] ∧ isAbsolute p then [separator] else dir

/-- `operator/`: an absolute path replaces the directory. -/
def append (p q : Path) : Path :=
  if isAbsolute q then q
  else if p = [] ∨ p.getLast? = some separator then p ++ q
  else p ++ separator :: q

/-- An element of a path, given those before it in reverse order. -/
def resolveStep (absolute : Bool) (above : List Path) (element : Path) : List Path :=
  if element = [] ∨ element = [dot] then above
  else if element = [dot, dot] then
    match above with
    | [] => if absolute then [] else [element]
    | parent :: rest => if parent = [dot, dot] then element :: above else rest
  else element :: above

/-- The elements that are left when `.` and `..` are resolved. -/
def resolve (p : Path) : List Path :=
  ((p.splitOn separator).foldl (resolveStep (isAbsolute p)) []).reverse

/-- The path leads into the directory. -/
def Inside (dir p : Path) : Prop := isAbsolute dir = isAbsolute p ∧ resolve dir <+: resolve p

instance (dir p : Path) : Decidable (Inside dir p) := inferInstanceAs (Decidable (_ ∧ _))

/-- A name that is not a way out of the directory. -/
structure PlainName (name : Path) : Prop where
  ne_nil : name ≠ []
  notMem : separator ∉ name
  ne_dots : name ≠ [dot, dot]

variable {dir name : Path}

theorem PlainName.isAbsolute (h : PlainName name) : isAbsolute name = false := by
  rcases name with _ | ⟨c, cs⟩
  · rfl
  · have := h.notMem
    simp only [List.mem_cons, not_or] at this
    simp [FsPath.isAbsolute, Ne.symm this.1]

/-- A plain name adds itself, or nothing. -/
theorem PlainName.resolveStep (h : PlainName name) (absolute : Bool) (above : List Path) :
    above <:+ resolveStep absolute above name := by
  unfold FsPath.resolveStep
  rw [if_neg h.ne_dots]
  split_ifs
  · exact List.suffix_refl _
  · exact List.suffix_cons _ _

theorem isAbsolute_append_of_ne_nil {q : Path} (hdir : dir ≠ []) :
    FsPath.isAbsolute (dir ++ q) = FsPath.isAbsolute dir := by
  obtain ⟨c, cs, rfl⟩ := List.exists_cons_of_ne_nil hdir
  rfl

/-- The elements of a directory stay when a name follows. -/
theorem resolve_cons_name (h : PlainName name) (p : Path) (hp : p ≠ []) :
    resolve p <+: resolve (p ++ separator :: name) := by
  unfold resolve
  rw [isAbsolute_append_of_ne_nil hp, List.splitOn_append_cons_self,
    List.splitOn_eq_singleton h.notMem, List.foldl_append, List.reverse_prefix]
  exact h.resolveStep _ _

/-- A separator at the end of a directory counts for nothing. -/
theorem resolve_separator (p : Path) (hp : p ≠ []) : resolve (p ++ [separator]) = resolve p := by
  unfold resolve
  rw [isAbsolute_append_of_ne_nil hp, List.splitOn_append_cons_self, List.splitOn_nil,
    List.foldl_append]
  rfl

/-- A plain name lies in the directory it is looked up in. -/
theorem inside_append (h : PlainName name) (hdir : dir ≠ []) : Inside dir (append dir name) := by
  unfold append
  rw [h.isAbsolute, if_neg Bool.false_ne_true]
  split_ifs with hend
  · obtain ⟨p, hp⟩ := List.getLast?_eq_some_iff.1 (hend.resolve_left hdir)
    refine ⟨(isAbsolute_append_of_ne_nil hdir).symm, ?_⟩
    rcases eq_or_ne p [] with rfl | hne
    · have hroot : resolve dir = [] := by
        rw [hp]
        rfl
      rw [hroot]
      exact List.nil_prefix
    · rw [hp, resolve_separator p hne, List.append_assoc]
      exact resolve_cons_name h p hne
  · exact ⟨(isAbsolute_append_of_ne_nil hdir).symm, resolve_cons_name h dir hdir⟩

end FsPath
