import EnvManifest.Proofs.Says
import Mathlib.Data.List.Induction

/-!
# Where the commands and the comment of a script are from

The commands of a script and the comment above its name are looked up apart. The commands are
decoded with the settings: the shell is an object or an array, whose second element are the
scripts then, and of several scripts with one name the last one counts
(`exists_scripts?_of_shell`). The comment is what a path of three names leads to, and that knows
only objects and stops at the first member of a name (`Document.commentAt_keys`).

So a script has the comment above the first member of its name, or none if the shell is an array
(`Manifest.writesScript_of_load`). That is the comment above the commands whenever the shell is an
object that has the name once.
-/

namespace EnvManifest

open Datum (HasField)
open Manifest Object

/-! ### Looking up in tables -/

namespace Table

variable {α : Type}

theorem lookup_entry (e : Text × α) (entries : List (Text × α)) (name : Text) :
    (e :: entries).lookup name = if name = e.1 then some e.2 else entries.lookup name := by
  rw [List.lookup_cons]
  by_cases h : name = e.1
  · rw [beq_iff_eq.2 h, if_pos h]
  · rw [beq_false_of_ne h, if_neg h]

theorem lookup_putEntry (key name : Text) (value : α) (entries : List (Text × α)) :
    (putEntry key value entries).lookup name =
      if name = key then some value else entries.lookup name := by
  induction entries with
  | nil => rw [putEntry, lookup_entry]
  | cons e rest ih =>
    obtain ⟨k, v⟩ := e
    rw [putEntry]
    split
    · rw [lookup_entry]
    · split
      · rename_i hkey
        rw [lookup_entry, lookup_entry, hkey]
        split <;> rfl
      · rename_i hne
        rw [lookup_entry, lookup_entry, ih]
        -- a name has one key only
        by_cases hk : name = k
        · rw [if_pos hk, if_pos hk, if_neg (hk ▸ Ne.symm hne)]
        · rw [if_neg hk, if_neg hk]

theorem get?_insert (t : Table α) (key name : Text) (value : α) :
    (t.insert key value).get? name = if name = key then some value else t.get? name :=
  lookup_putEntry key name value t.entries

/-- **The last entry of a key counts.** -/
theorem get?_ofList (entries : List (Text × α)) (name : Text) :
    (ofList entries).get? name = entries.reverse.lookup name := by
  induction entries using List.reverseRecOn with
  | nil => rfl
  | append_singleton entries e ih =>
    have hinsert : ofList (entries ++ [e]) = (ofList entries).insert e.1 e.2 := by
      rw [ofList, List.foldl_append]
      rfl
    rw [hinsert, get?_insert, ih, List.reverse_append]
    exact (lookup_entry e entries.reverse name).symm

theorem get?_empty (name : Text) : (empty : Table α).get? name = none := rfl

theorem get?_mapEntries {β : Type} (f : Text → α → β) (t : Table α) (name : Text) :
    (t.mapEntries f).get? name = (t.get? name).map (f name) := by
  change (t.entries.map fun e => (e.1, f e.1 e.2)).lookup name = (t.entries.lookup name).map (f name)
  induction t.entries with
  | nil => rfl
  | cons e rest ih =>
    rw [List.map_cons, lookup_entry, lookup_entry, ih]
    split
    · rename_i hname
      rw [hname]
      rfl
    · rfl

end Table

/-! ### Members of a name -/

namespace Object

variable {o : Object} {name : Text} {s : Spot}

/-- The last of the members of a name. -/
def last? (o : Object) (name : Text) : Option Member :=
  o.children.reverse.find? fun m => Member.name m == name

theorem exists_spot?_of_last? {m : Member} (h : o.last? name = some m) :
    ∃ s, spot? o name = some s := by
  have hname : Member.name m = name := by simpa using List.find?_some h
  have hmem : m ∈ o.children := List.mem_reverse.1 (List.mem_of_find?_eq_some h)
  cases hs : spot? o name with
  | some s => exact ⟨s, rfl⟩
  | none => exact absurd (List.mem_map.2 ⟨m, hmem, hname⟩) (not_mem_of_spotIn?_eq_none hs)

/-- A member that comes first and is not followed by another one of the name comes last. -/
theorem last?_eq_here (h : spot? o name = some s) (hafter : name ∉ s.after.map Member.name) :
    o.last? name = some s.here := by
  have hnone : s.after.reverse.find? (fun m => Member.name m == name) = none := by
    rw [List.find?_eq_none]
    intro m hm hname
    exact hafter (List.mem_map.2 ⟨m, List.mem_reverse.1 hm, beq_iff_eq.1 hname⟩)
  rw [last?, ← members_of_spot? h, Spot.members, List.reverse_append, List.reverse_cons,
    List.append_assoc, List.find?_append, hnone, Option.none_or]
  exact List.find?_cons_of_pos (beq_iff_eq.2 (name_of_spot? h))

/-- What is found under a name in a table is decoded from the last member of the name. -/
theorem exists_last?_of_decodeTable {α : Type} {decode : Datum → Decoded α} {t : Table α} {a : α}
    (h : Datum.decodeTable decode (.object o.entries) = .ok t) (ha : t.get? name = some a) :
    ∃ m, o.last? name = some m ∧ decode m.node.datum = .ok a := by
  obtain ⟨es, hes, ht⟩ := bind_eq_ok.1 h
  obtain rfl := Except.ok.inj ht
  rw [Table.get?_ofList] at ha
  rw [entries] at hes
  rw [last?]
  clear h ht
  generalize o.children = ms at hes
  induction ms using List.reverseRecOn generalizing es with
  | nil =>
    obtain rfl := Except.ok.inj hes
    simp at ha
  | append_singleton ms m ih =>
    rw [List.map_append, mapM_append_eq_ok] at hes
    obtain ⟨es₁, es₂, hms, hm, rfl⟩ := hes
    obtain ⟨e, es', he, hnil, rfl⟩ := mapM_cons_eq_ok.1 hm
    obtain rfl : [] = es' := Except.ok.inj hnil
    obtain ⟨v, hv, hput⟩ := bind_eq_ok.1 he
    obtain rfl := Except.ok.inj hput
    rw [List.reverse_append, List.reverse_singleton, List.singleton_append,
      Table.lookup_entry] at ha
    rw [List.reverse_append, List.reverse_singleton, List.singleton_append]
    by_cases hname : name = Member.name m
    · obtain rfl := Option.some.inj ((if_pos hname).symm.trans ha)
      exact ⟨m, List.find?_cons_of_pos (beq_iff_eq.2 hname.symm), hv⟩
    · rw [List.find?_cons_of_neg (by simpa using Ne.symm hname)]
      exact ih es₁ ((if_neg hname).symm.trans ha) hms

end Object

/-! ### Where scripts are written -/

/-- The name of the shell. -/
def shellKey : Text := "shell".toList

/-- The name of the scripts of a shell. -/
def scriptsKey : Text := "scripts".toList

/-- The scripts of a shell: what their name leads to, or the second element. -/
def Node.scripts? : Node → Option Object
  | .object o => (spot? o scriptsKey).bind fun s => s.here.node.object?
  | .array es => es.children[1]?.bind fun e => e.node.object?
  | _ => none

/-- The member that a script is written in, the last one of the name. -/
def Document.scriptMember? (d : Document) (name : Text) : Option Member := do
  let shell ← spot? d.root shellKey
  let scripts ← shell.here.node.scripts?
  Object.last? scripts name

theorem Shell.hasField_scripts : HasField Shell.fields scriptsKey
    (Datum.decodeOr Table.empty (Datum.decodeTable Commands.decode))
    fun a s => { s with scripts := a } where
  find := rfl
  independent _ := .cons_of_comm (fun _ _ => rfl) (.cons_self rfl .nil)
  set_set _ _ _ := rfl

theorem Settings.hasField_shell : HasField Settings.fields shellKey
    (Datum.decodeOr Shell.empty Shell.decode) fun a S => { S with shell := a } where
  find := rfl
  independent _ := by
    repeat first | refine .cons_of_comm (fun _ _ => rfl) ?_ | refine .cons_self rfl ?_
    exact .nil
  set_set _ _ _ := rfl

/-- A field that is not as it was at first is decoded from the first member of its name. -/
theorem Object.exists_spot?_of_decodeMembers {σ α : Type} {fields : List (Datum.Field σ)}
    {name : Text} {decode : Datum → Decoded α} {set : α → σ → σ} {o : Object} {first t : σ}
    (hf : HasField fields name decode set)
    (h : Datum.decodeMembers fields [] o.entries first = .ok t) {b : α} (hb : set b first = first)
    (hne : t ≠ set b t) :
    ∃ s a, spot? o name = some s ∧ decode s.here.node.datum = .ok a ∧ t = set a t := by
  cases hs : spot? o name with
  | some s =>
    obtain ⟨a, ha⟩ := decodes_spot hf hs h
    exact ⟨s, a, rfl, ha⟩
  | none => exact absurd (Datum.decodeMembers_unset hf h (not_mem_of_spot?_eq_none hs) hb) hne

/-- A script of the scripts of a node is decoded from the last member of its name. -/
theorem exists_last?_of_scripts {n : Node} {t : Table Commands} {name : Text} {c : Commands}
    (h : Datum.decodeOr Table.empty (Datum.decodeTable Commands.decode) n.datum = .ok t)
    (hc : t.get? name = some c) : ∃ (scripts : Object) (m : Member), n = .object scripts ∧
      scripts.last? name = some m ∧ Commands.decode m.node.datum = .ok c := by
  cases n with
  | object scripts =>
    rw [Node.datum_object] at h
    obtain ⟨m, hm⟩ := exists_last?_of_decodeTable (o := scripts) h hc
    exact ⟨scripts, m, rfl, hm⟩
  | null =>
    obtain rfl := Except.ok.inj h
    simp [Table.get?_empty] at hc
  | array es => simp [Datum.decodeOr, Datum.decodeTable] at h
  | bool b | number t | string l =>
    simp [Node.datum, Node.denoting, Datum.decodeOr, Datum.decodeTable] at h

/-- A script of a shell that is an array is decoded from the second element. -/
theorem exists_scripts?_of_array {es : Elements} {shell : Shell} {name : Text} {c : Commands}
    (h : Datum.decodeOr Shell.empty Shell.decode (Node.array es).datum = .ok shell)
    (hc : shell.scripts.get? name = some c) : ∃ (scripts : Object) (m : Member),
      (Node.array es).scripts? = some scripts ∧ scripts.last? name = some m ∧
      Commands.decode m.node.datum = .ok c := by
  rw [Node.datum_array] at h
  cases hes : es.children with
  | nil =>
    rw [hes] at h
    obtain rfl := Except.ok.inj h
    simp [Shell.empty, Table.get?_empty] at hc
  | cons hook rest =>
    rw [hes] at h
    obtain ⟨s, hhook, hrest⟩ := bind_eq_ok.1 h
    obtain ⟨a, -, hs⟩ := bind_eq_ok.1 hhook
    obtain rfl := Except.ok.inj hs
    cases rest with
    | nil =>
      obtain rfl := Except.ok.inj hrest
      simp [Shell.empty, Table.get?_empty] at hc
    | cons e rest =>
      obtain ⟨s, hscripts, hrest⟩ := bind_eq_ok.1 hrest
      obtain ⟨t, ht, hs⟩ := bind_eq_ok.1 hscripts
      obtain rfl := Except.ok.inj hs
      cases rest with
      | nil =>
        obtain rfl := Except.ok.inj hrest
        obtain ⟨scripts, m, hnode, hm⟩ := exists_last?_of_scripts ht hc
        exact ⟨scripts, m, by rw [Node.scripts?, hes]; exact congrArg Node.object? hnode, hm⟩
      | cons d rest => simp [Datum.decodeInOrder] at hrest

/-- **A script of a shell** is decoded from the last member of its name in the scripts. -/
theorem exists_scripts?_of_shell {n : Node} {shell : Shell} {name : Text} {c : Commands}
    (h : Datum.decodeOr Shell.empty Shell.decode n.datum = .ok shell)
    (hc : shell.scripts.get? name = some c) : ∃ (scripts : Object) (m : Member),
      n.scripts? = some scripts ∧ scripts.last? name = some m ∧
      Commands.decode m.node.datum = .ok c := by
  cases n with
  | object o =>
    rw [Node.datum_object] at h
    have hne : shell ≠ { shell with scripts := Table.empty } := by
      intro heq
      rw [heq] at hc
      simp [Table.get?_empty] at hc
    obtain ⟨s, t, hs, ht, hset⟩ :=
      exists_spot?_of_decodeMembers (o := o) Shell.hasField_scripts h rfl hne
    rw [hset] at hc
    obtain ⟨scripts, m, hnode, hm⟩ := exists_last?_of_scripts ht hc
    exact ⟨scripts, m, by rw [Node.scripts?, hs, Option.bind_some, hnode]; rfl, hm⟩
  | array es => exact exists_scripts?_of_array h hc
  | null =>
    obtain rfl := Except.ok.inj h
    simp [Shell.empty, Table.get?_empty] at hc
  | bool b | number t | string l =>
    simp [Node.datum, Node.denoting, Datum.decodeOr, Shell.decode, Datum.decodeRecord] at h

/-! ### Where comments are read -/

/-- One name of a path leads to the first member of the name. -/
theorem Node.leadAt?_key {o : Object} {name : Text} {s : Spot} (h : spot? o name = some s)
    (path : List PathItem) (lead : Text) :
    leadAt? (.key name :: path) lead (.object o) = leadAt? path s.here.lead s.here.node := by
  have hindex : index? o name = some s.before.length := by
    rw [index?, h]
    rfl
  have hhere : o.children[s.before.length]? = some s.here := by
    rw [← members_of_spot? h, Spot.members]
    simp
  simp only [leadAt?, Object.place?, hindex, hhere, Option.bind_eq_bind, Option.bind_some]

/-- The comment that a script is given by the first member of its name, in a shell. -/
def scriptComment (shell : Node) (first : Member) : Text :=
  match shell with
  | .object _ => commentText first.lead
  | _ => []

/-- **The comment that a path of three names leads to** is that of the first member of the name
in a shell that is an object, and none in an array. -/
theorem Document.commentAt_keys {d : Document} {shell first : Spot} {scripts : Object} {name : Text}
    (hshell : spot? d.root shellKey = some shell) (hscripts : shell.here.node.scripts? = some scripts)
    (hfirst : spot? scripts name = some first) :
    d.toValue.commentAt [.key shellKey, .key scriptsKey, .key name] =
      scriptComment shell.here.node first.here := by
  have hroot : d.toValue.node = .object d.root := rfl
  rw [Value.commentAt, hroot, Node.leadAt?_key hshell]
  cases hn : shell.here.node with
  | object o =>
    rw [hn] at hscripts
    obtain ⟨s, hs, hobject⟩ := Option.bind_eq_some_iff.1 hscripts
    rw [Node.leadAt?_key hs, Node.object?_eq_some.1 hobject, Node.leadAt?_key hfirst]
    rfl
  | array es => rfl
  | null | bool b | number t | string l =>
    rw [hn] at hscripts
    simp [Node.scripts?] at hscripts

/-! ### Scripts -/

/-- Where a script is from: the commands are those of the last member of its name, and the
comment is the one found for the first one. -/
structure Document.WritesScript (d : Document) (name : Text) (script : Script)
    (shell first : Spot) (scripts : Object) (last : Member) : Prop where
  shellAt : spot? d.root shellKey = some shell
  scriptsAt : shell.here.node.scripts? = some scripts
  firstAt : spot? scripts name = some first
  lastAt : Object.last? scripts name = some last
  commands : Commands.decode last.node.datum = .ok script.commands
  comment : script.comment = scriptComment shell.here.node first.here

theorem Document.WritesScript.scriptMember? {d : Document} {name : Text} {script : Script}
    {shell first : Spot} {scripts : Object} {last : Member}
    (h : d.WritesScript name script shell first scripts last) : d.scriptMember? name = some last := by
  rw [Document.scriptMember?, h.shellAt]
  change (shell.here.node.scripts?).bind (fun scripts => Object.last? scripts name) = some last
  rw [h.scriptsAt]
  exact h.lastAt

/-- The comment of a script is the one above its commands if the first member of its name has the
comment that the last one has, in a shell that is an object. -/
theorem Document.WritesScript.comment_eq_iff {d : Document} {name : Text} {script : Script}
    {shell first : Spot} {scripts : Object} {last : Member}
    (h : d.WritesScript name script shell first scripts last) :
    script.comment = commentText last.lead ↔
      (∃ o, shell.here.node = .object o) ∧ commentText first.here.lead = commentText last.lead ∨
      (∃ es, shell.here.node = .array es) ∧ commentText last.lead = [] := by
  have hscripts := h.scriptsAt
  rw [h.comment]
  cases hn : shell.here.node with
  | object o => simp [scriptComment]
  | array es => simp [scriptComment, eq_comm]
  | null | bool b | number t | string l =>
    rw [hn] at hscripts
    simp [Node.scripts?] at hscripts

namespace Manifest

variable {m : Manifest} {name : Text} {script : Script}

/-- **Every script of a document is written in it**, if the document says what the manifest does. -/
theorem exists_writesScript (h : m.document.Says m.toSettings)
    (hscript : m.scripts.get? name = some script) :
    ∃ shell first scripts last, m.document.WritesScript name script shell first scripts last := by
  rw [Manifest.scripts, Table.get?_mapEntries] at hscript
  obtain ⟨c, hc, rfl⟩ := Option.map_eq_some_iff.1 hscript
  have hne : m.toSettings ≠ { m.toSettings with shell := Shell.empty } := by
    intro heq
    have hshell : m.shell = Shell.empty := congrArg Settings.shell heq
    rw [hshell] at hc
    simp [Shell.empty, Table.get?_empty] at hc
  obtain ⟨shell, t, hshell, ht, hset⟩ :=
    exists_spot?_of_decodeMembers Settings.hasField_shell h.gives.decodes rfl hne
  have hmshell : m.shell = t := congrArg Settings.shell hset
  rw [hmshell] at hc
  obtain ⟨scripts, last, hholds, hlast, hcommands⟩ := exists_scripts?_of_shell ht hc
  obtain ⟨first, hfirst⟩ := exists_spot?_of_last? hlast
  exact ⟨shell, first, scripts, last, hshell, hholds, hfirst, hlast, hcommands,
    Document.commentAt_keys hshell hholds hfirst⟩

/-- **Where the commands and the comment of a script are from**: the last and the first member of
its name. The comment is the one right above the commands exactly if both members have the same
comment and the shell is an object, or if there is none above the commands and the shell is an
array; so it is if the shell is an object that has the name once. -/
theorem writesScript_of_load {b : Octets} (h : loadOctets b = .ok m)
    (hscript : m.scripts.get? name = some script) :
    ∃ shell first scripts last, m.document.WritesScript name script shell first scripts last ∧
      (script.comment = commentText last.lead ↔
        (∃ o, shell.here.node = .object o) ∧ commentText first.here.lead = commentText last.lead ∨
        (∃ es, shell.here.node = .array es) ∧ commentText last.lead = []) ∧
      ((∃ o, shell.here.node = .object o) → name ∉ first.after.map Member.name →
        script.comment = commentText last.lead) := by
  obtain ⟨s, -, hload⟩ := loadOctets_eq_ok.1 h
  obtain ⟨shell, first, scripts, last, hwrites⟩ :=
    exists_writesScript (load_eq_ok.1 hload).2.1 hscript
  refine ⟨shell, first, scripts, last, hwrites, hwrites.comment_eq_iff, fun hobject honce => ?_⟩
  have hlast : last = first.here :=
    Option.some.inj (hwrites.lastAt.symm.trans (last?_eq_here hwrites.firstAt honce))
  exact hwrites.comment_eq_iff.2 (Or.inl ⟨hobject, by rw [hlast]⟩)

/-- A script with a comment above it, behind one without. -/
theorem writesScript_of_load_commented :
    ∃ m script, loadOctets (Text.utf8 ("\x7b\"shell\": \x7b\"scripts\": \x7b".toList ++
        "\"run\": \"go run .\",\n// Runs the tests\n".toList ++
        "\"test\": [\"go vet\", \"go test\"]\x7d\x7d\x7d".toList)) = .ok m ∧
      m.scripts.get? "test".toList = some script ∧
      ∃ shell first scripts last,
        m.document.WritesScript "test".toList script shell first scripts last ∧
        script.comment = commentText last.lead := by
  obtain ⟨m, hm, script, hscript, last, hlast, habove⟩ : ∃ m,
      loadOctets (Text.utf8 ("\x7b\"shell\": \x7b\"scripts\": \x7b".toList ++
        "\"run\": \"go run .\",\n// Runs the tests\n".toList ++
        "\"test\": [\"go vet\", \"go test\"]\x7d\x7d\x7d".toList)) = .ok m ∧
      ∃ script, m.scripts.get? "test".toList = some script ∧
        ∃ last, m.document.scriptMember? "test".toList = some last ∧
          script.comment = commentText last.lead := by
    decide +kernel
  obtain ⟨shell, first, scripts, last', hwrites, -, -⟩ := writesScript_of_load hm hscript
  obtain rfl := Option.some.inj (hlast.symm.trans hwrites.scriptMember?)
  exact ⟨m, script, hm, hscript, shell, first, scripts, last, hwrites, habove⟩

/-- A script of a shell that is an array is without the comment above it, and of two scripts with
one name the comment of the first goes with the commands of the second. -/
theorem not_comment_above_commands :
    (∃ m script last, loadOctets (Text.utf8 ("\x7b\"shell\": [null, \x7b\n".toList ++
        "  // Runs the tests\n  \"test\": \"go test\"\n\x7d]\x7d".toList)) = .ok m ∧
      m.scripts.get? "test".toList = some script ∧
      m.document.scriptMember? "test".toList = some last ∧
      Commands.decode last.node.datum = .ok script.commands ∧
      script.comment ≠ commentText last.lead) ∧
    ∃ m script last, loadOctets (Text.utf8 ("\x7b\"shell\": \x7b\"scripts\": \x7b\n".toList ++
        "  // old\n  \"run\": \"one\",\n  // new\n  \"run\": \"two\"\n\x7d\x7d\x7d".toList)) = .ok m ∧
      m.scripts.get? "run".toList = some script ∧
      m.document.scriptMember? "run".toList = some last ∧
      Commands.decode last.node.datum = .ok script.commands ∧
      script.comment ≠ commentText last.lead := by
  constructor
  · obtain ⟨m, hm, script, hscript, last, hlast, hcommands, habove⟩ : ∃ m,
        loadOctets (Text.utf8 ("\x7b\"shell\": [null, \x7b\n".toList ++
          "  // Runs the tests\n  \"test\": \"go test\"\n\x7d]\x7d".toList)) = .ok m ∧
        ∃ script, m.scripts.get? "test".toList = some script ∧
          ∃ last, m.document.scriptMember? "test".toList = some last ∧
            Commands.decode last.node.datum = .ok script.commands ∧
            script.comment ≠ commentText last.lead := by
      decide +kernel
    exact ⟨m, script, last, hm, hscript, hlast, hcommands, habove⟩
  · obtain ⟨m, hm, script, hscript, last, hlast, hcommands, habove⟩ : ∃ m,
        loadOctets (Text.utf8 ("\x7b\"shell\": \x7b\"scripts\": \x7b\n".toList ++
          "  // old\n  \"run\": \"one\",\n  // new\n  \"run\": \"two\"\n\x7d\x7d\x7d".toList)) =
            .ok m ∧
        ∃ script, m.scripts.get? "run".toList = some script ∧
          ∃ last, m.document.scriptMember? "run".toList = some last ∧
            Commands.decode last.node.datum = .ok script.commands ∧
            script.comment ≠ commentText last.lead := by
      decide +kernel
    exact ⟨m, script, last, hm, hscript, hlast, hcommands, habove⟩

end Manifest

end EnvManifest
