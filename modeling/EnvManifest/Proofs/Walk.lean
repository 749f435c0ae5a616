import EnvManifest.Manifest.Saved
import EnvManifest.Proofs.Decode
import Mathlib.Data.List.Basic

/-!
# Walking back to a file

The path of a file that was read is written without names that stay or lead up, so that
walking it leads to the file again, through the directories that were passed on the way
(`Store.Reaches`). It has to be known of a path that is written that it is cut into names
where they were put together (`Text.names_written`), and of what is written to the file that
no walk notices it (`Store.walk_put`).
-/

namespace EnvManifest

/-! ### Written paths -/

namespace Text

/-- A name that leads from a directory to what has that name in it. -/
structure LeadsDown (name : Text) : Prop where
  noSlash : '/' ∉ name
  notStays : name.stays = false
  notUp : name.leadsUp = false

theorem LeadsDown.ne_nil {name : Text} (h : name.LeadsDown) : name ≠ [] := by
  rintro rfl
  exact absurd h.notStays (by simp [stays])

/-- The names in a path have no slashes. -/
theorem noSlash_of_mem_names {path name : Text} (h : name ∈ path.names) : '/' ∉ name :=
  not_mem_of_mem_splitOn h

/-- A path behind a name is cut into that name and the names it was put together of. -/
theorem names_append_written {t : Text} {p : FilePath} (ht : '/' ∉ t)
    (hp : ∀ name ∈ p, '/' ∉ name) : names (t ++ p.written) = t :: p := by
  induction p generalizing t with
  | nil =>
    rw [FilePath.written, List.flatMap_nil, List.append_nil]
    exact List.splitOn_eq_singleton ht
  | cons name p ih =>
    obtain ⟨hname, hp⟩ := List.forall_mem_cons.1 hp
    rw [FilePath.written, List.flatMap_cons, List.cons_append, names,
      List.splitOn_append_cons_self_of_not_mem ht]
    exact congrArg (t :: ·) (ih hname hp)

/-- **A written path is cut where it was put together**, with an empty name in front. -/
theorem names_written {p : FilePath} (hp : ∀ name ∈ p, '/' ∉ name) :
    names p.written = [] :: p :=
  names_append_written List.not_mem_nil hp

/-- A path whose last name leads down is cut in front of that name. -/
theorem cutAtName?_of_names {path name : Text} {above : List Text}
    (h : path.names = above ++ [name]) (hname : name.LeadsDown) :
    path.cutAtName? = some (above, name, []) := by
  rw [cutAtName?, h]
  simp [hname.notStays, hname.notUp]

theorem cutAtName?_written {q : FilePath} {name : Text} (hq : ∀ n ∈ q, n.LeadsDown)
    (hname : name.LeadsDown) :
    cutAtName? (FilePath.written (q ++ [name])) = some ([] :: q, name, []) := by
  refine cutAtName?_of_names ?_ hname
  rw [names_written]
  · rfl
  · intro n hn
    rcases List.mem_append.1 hn with hn | hn
    · exact (hq n hn).noSlash
    · obtain rfl := List.mem_singleton.1 hn
      exact hname.noSlash

end Text

namespace FilePath

theorem written_append (p q : FilePath) : written (p ++ q) = p.written ++ q.written :=
  List.flatMap_append

theorem written_singleton (name : Text) : written [name] = '/' :: name := by
  simp [written]

/-- A name put behind a written path. -/
theorem inDirectory_written {q : FilePath} {last : Text} (hlast : last.LeadsDown) (name : Text) :
    Text.inDirectory (written (q ++ [last])) name = written (q ++ [last] ++ [name]) := by
  have hend : (written (q ++ [last])).getLast? ≠ some '/' := by
    rw [written_append, written_singleton, List.append_cons,
      List.getLast?_append_of_ne_nil _ hlast.ne_nil]
    exact fun h => hlast.noSlash (List.mem_of_getLast? h)
  rw [Text.inDirectory, if_neg hend, written_append _ [name], written_singleton]

end FilePath

/-! ### Walking -/

namespace Store

variable {s : Store} {p here : FilePath} {names : List Text}

theorem checkDirectory_eq_ok : s.checkDirectory p = .ok () ↔ s.find? p = some .directory := by
  rw [checkDirectory]
  split <;> simp_all

/-- A path is made of names that lead down, from a directory each. -/
structure Reaches (s : Store) (p : FilePath) : Prop where
  names : ∀ name ∈ p, name.LeadsDown
  directories : ∀ q, q <+: p → q ≠ p → s.find? q = some .directory

theorem reaches_top (s : Store) : s.Reaches [] where
  names := by simp
  directories q hq hne := absurd (List.prefix_nil.1 hq) hne

/-- So is the path of a directory on the way. -/
theorem Reaches.of_prefix {q : FilePath} (h : s.Reaches p) (hq : q <+: p) : s.Reaches q where
  names name hname := h.names name (hq.subset hname)
  directories r hr hne := by
    refine h.directories r (hr.trans hq) ?_
    rintro rfl
    exact hne (hr.eq_of_length_le hq.length_le)

/-- A step from a directory. -/
theorem Reaches.step {name : Text} (h : s.Reaches here) (hname : '/' ∉ name)
    (hhere : s.find? here = some .directory) : s.Reaches (step here name) := by
  rw [Store.step]
  split
  · exact h
  · rename_i hstays
    split
    · exact h.of_prefix (List.dropLast_prefix here)
    · rename_i hup
      refine ⟨fun n hn => ?_, fun q hq hne => ?_⟩
      · rcases List.mem_append.1 hn with hn | hn
        · exact h.names n hn
        · obtain rfl := List.mem_singleton.1 hn
          exact ⟨hname, by simpa using hstays, by simpa using hup⟩
      · have hq := (List.prefix_concat_iff.1 hq).resolve_left hne
        by_cases heq : q = here
        · rw [heq, hhere]
        · exact h.directories q hq heq

theorem walk_cons_eq_ok {name : Text} : s.walk here (name :: names) = .ok p ↔
    s.find? here = some .directory ∧ s.walk (step here name) names = .ok p := by
  rw [walk, bind_eq_ok, ← checkDirectory_eq_ok]
  exact ⟨fun ⟨_, hcheck, h⟩ => ⟨hcheck, h⟩, fun ⟨hcheck, h⟩ => ⟨(), hcheck, h⟩⟩

/-- **Where a walk ends is reached straight.** -/
theorem Reaches.walk (h : s.Reaches here) (hnames : ∀ name ∈ names, '/' ∉ name)
    (hwalk : s.walk here names = .ok p) : s.Reaches p := by
  induction names generalizing here with
  | nil =>
    obtain rfl := Except.ok.inj hwalk
    exact h
  | cons name names ih =>
    obtain ⟨hname, hnames⟩ := List.forall_mem_cons.1 hnames
    obtain ⟨hhere, hrest⟩ := walk_cons_eq_ok.1 hwalk
    exact ih (h.step hname hhere) hnames hrest

/-- A walk down leads where it says. -/
theorem walk_of_reaches (h : s.Reaches (here ++ names)) :
    s.walk here names = .ok (here ++ names) := by
  induction names generalizing here with
  | nil => rw [Store.walk, List.append_nil]
  | cons name names ih =>
    have hname : name.LeadsDown := h.names name (by simp)
    have hstep : step here name = here ++ [name] := by
      rw [Store.step, hname.notStays, hname.notUp]
      rfl
    refine walk_cons_eq_ok.2 ⟨h.directories here (List.prefix_append here _) (by simp), ?_⟩
    rw [List.append_cons] at h ⊢
    rw [hstep]
    exact ih h

/-- **A walk along the names of a written path** leads to the path. -/
theorem walk_written (h : s.Reaches p) : s.walk [] ([] :: p) = .ok p :=
  walk_cons_eq_ok.2 ⟨s.find?_top, walk_of_reaches h⟩

/-- Another content of a file is not noticed on a walk. -/
theorem walk_put {content content' : Octets} (hp : s.find? p = some (.file content))
    (here : FilePath) (names : List Text) :
    (s.put p (.file content')).walk here names = s.walk here names := by
  have hne : p ≠ [] := by
    rintro rfl
    simp at hp
  induction names generalizing here with
  | nil => rfl
  | cons name names ih =>
    -- there was a file and there is one, so neither is walked through
    have hcheck : (s.put p (.file content')).checkDirectory here = s.checkDirectory here := by
      rw [checkDirectory, checkDirectory, find?_put hne]
      by_cases hhere : here = p
      · rw [if_pos hhere, hhere, hp]
      · rw [if_neg hhere]
    rw [Store.walk, Store.walk, hcheck]
    exact bind_congr fun _ => ih _

/-! ### Reading and writing -/

theorem read_eq_ok {path : Text} {content : Octets} : s.read path = .ok (p, content) ↔
    s.walk [] path.names = .ok p ∧ s.find? p = some (.file content) := by
  rw [read, bind_eq_ok]
  constructor
  · rintro ⟨q, hq, h⟩
    split at h
    · rename_i c hc
      obtain ⟨rfl, rfl⟩ := Prod.mk.inj (Except.ok.inj h)
      exact ⟨hq, hc⟩
    · simp at h
    · simp at h
  · rintro ⟨hp, hcontent⟩
    exact ⟨p, hp, by rw [hcontent]⟩

/-- The path of a file that was read leads to it. -/
theorem reaches_of_read {path : Text} {content : Octets} (h : s.read path = .ok (p, content)) :
    s.Reaches p :=
  s.reaches_top.walk (fun _ => Text.noSlash_of_mem_names) (read_eq_ok.1 h).1

/-- A file is read where it was, with what was put there. -/
theorem read_put {path : Text} {content : Octets} (h : s.read path = .ok (p, content))
    (content' : Octets) : (s.put p (.file content')).read path = .ok (p, content') := by
  obtain ⟨hwalk, hp⟩ := read_eq_ok.1 h
  have hne : p ≠ [] := by
    rintro rfl
    simp at hp
  refine read_eq_ok.2 ⟨?_, ?_⟩
  · rw [walk_put hp, hwalk]
  · rw [find?_put hne, if_pos rfl]

/-- **A file is moved to a written path**: there has to be a directory to put it in, and no
directory in its place. -/
theorem replace_written {q : FilePath} {name : Text} (hq : s.Reaches q) (hname : name.LeadsDown)
    (content : Octets) : s.replace (FilePath.written (q ++ [name])) content =
      (do
        s.checkDirectory q
        s.checkTarget (q ++ [name]) []
        .ok (s.put (q ++ [name]) (.file content))) := by
  rw [replace, Text.cutAtName?_written hq.names hname]
  dsimp only
  rw [walk_written hq]
  rfl

end Store

end EnvManifest
