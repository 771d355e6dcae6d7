import Mathlib.Data.List.Perm.Basic
import Mathlib.Data.List.TakeWhile
import Upkeep.Proofs.Extension
import Upkeep.Proofs.Spelling

/-!
# Settings files, written and loaded

A settings file is written from overrides: a header, and below it one
line for every key that is given, in any order. `Settings.Written` tells
which texts are such files; the values may be written in all the ways of
`Toml.Quoted`, `Toml.Listed` and `Toml.Braced`.

Loading such a file gives back the overrides. This is shown in three
steps, from the inside out: a line is read as an assignment of its value
(`undoes_written`), the lines as the table of these assignments
(`read_written`), and the table as the overrides, as the order of its keys
does not matter (`ofTable?_of_perm`). What is left is what the settings
make of the extension.
-/

namespace Upkeep

open Toml (Key Value Table Quoted Listed Braced Assigned IsGap IsBreak IsBare Undoes)

/-! ## Lines of a document -/

namespace Toml

theorem restOfLine_break {b : Text} (hb : IsBreak b) (s : Text) :
    restOfLine (b ++ s) = some s := by
  obtain rfl | rfl := hb <;> rfl

theorem restOfLine_congr {s t : Text} (h : skipSpace s = skipSpace t) :
    restOfLine s = restOfLine t := by
  rw [restOfLine, restOfLine, h]

/-- A line that is neither blank nor only a comment is one statement. -/
theorem statements_cons {text t s : Text} {c : Char} {first : Statement}
    {rest : List Statement} {fuel : Nat} (htext : skipSpace text = c :: t)
    (hc : IsTokenStart c) (hfirst : statement (c :: t) = some (first, s))
    (hrest : statements fuel s = some rest) :
    statements (fuel + 1) text = some (first :: rest) := by
  rw [statements, htext]
  split
  · rename_i heq
    cases heq
  · rename_i heq
    exact absurd ((List.cons.inj heq).1 ▸ hc) (by decide)
  · rename_i heq
    exact absurd ((List.cons.inj heq).1 ▸ hc) (by decide)
  · rename_i heq
    exact absurd ((List.cons.inj heq).1 ▸ hc) (by decide)
  · simp [hfirst, hrest]

theorem statement_header {g k g' g'' more s : Text} (hg : IsGap g) (hk : IsBare k)
    (hg' : IsGap g') (hg'' : IsGap g'') (hend : restOfLine more = some s) :
    statement ('[' :: (g ++ (k ++ (g' ++ ']' :: (g'' ++ more)))))
      = some (.header [] k, s) := by
  have hkey := key_bare (s := g'' ++ more) (c := ']') hg hk hg' (by decide)
  rw [← restOfLine_congr (skipSpace_gap hg'' more)] at hend
  rw [statement]
  · simp [hkey, char, hend]
  · -- A second bracket would be the first character of the key.
    intro t h
    have hskip := skipSpace_bare hg hk (g' ++ ']' :: (g'' ++ more))
    rw [h, skipSpace_cons (by decide)] at hskip
    obtain ⟨c, u, rfl, hc⟩ := hk.exists_cons
    exact ne_of_isKeyChar hc (by decide) (List.cons.inj hskip).1.symm

/-- Assignments below a header go to its table, in their order. -/
theorem run_assignments {k : Key} {t es : Table} (h : ((t ++ es).map (·.1)).Nodup) :
    Document.run [k] [(k, .table .header t)] (es.map fun e => .assign [] e.1 e.2)
      = some [(k, .table .header (t ++ es))] := by
  induction es generalizing t with
  | nil => simp [Document.run]
  | cons e es ih =>
      have hnew := Table.assign_of_notMem (Table.notMem_of_nodup h) e.2
      have hmore := ih (t := t ++ [e]) (by rwa [List.append_assoc, List.singleton_append])
      rw [List.append_assoc, List.singleton_append] at hmore
      simp [Document.run, Table.updateAt, Table.get?, Table.set, hnew, hmore]

namespace Table

/-- The order of the keys does not matter. -/
theorem get?_eq_of_perm {t t' : Table} (h : t.Perm t') (hkeys : (t.map (·.1)).Nodup) (k : Key) :
    t.get? k = t'.get? k := by
  have hkeys' : (t'.map (·.1)).Nodup := (h.map _).nodup_iff.mp hkeys
  by_cases hk : k ∈ t.map (·.1)
  · obtain ⟨e, he, rfl⟩ := List.mem_map.mp hk
    rw [get?_of_mem hkeys he, get?_of_mem hkeys' (h.mem_iff.mp he)]
  · have hk' : k ∉ t'.map (·.1) := fun hmem => hk ((h.map _).mem_iff.mpr hmem)
    rw [get?_of_notMem hk, get?_of_notMem hk']

theorem optional_of_get? {α : Type} {t : Table} {k : Key} {x : Option α} {encode : α → Value}
    {decode : Value → Option α} (hget : t.get? k = x.map encode)
    (h : ∀ a, decode (encode a) = some a) : t.optional k decode = some x := by
  cases x with
  | none => simp [optional, hget]
  | some a => simp [optional, hget, h]

end Table

end Toml

/-! ## Entries -/

namespace Mapping

def fields (m : Mapping) : List (Key × Text) :=
  [("template".toList, m.template), ("generator".toList, m.generator)]

def Written (m : Mapping) (w : Text) : Prop := Braced m.fields w

def toValue (m : Mapping) : Value := .table .inline (Table.ofStrings m.fields)

theorem ofValue?_toValue (m : Mapping) : ofValue? m.toValue = some m := rfl

theorem exists_written (m : Mapping) : ∃ w, m.Written w := by
  have hne : m.fields ≠ [] := List.cons_ne_nil _ _
  obtain ⟨body, hbody⟩ := Toml.exists_fields hne
  exact ⟨_, body, hbody, rfl⟩

theorem undoes_mapping (depth : Nat) : Undoes (Toml.value (depth + 1)) Written toValue where
  starts := by
    rintro m w ⟨body, -, rfl⟩
    exact ⟨_, _, rfl, by decide, by decide⟩
  reads := by
    intro m w rest h _
    have hbare : IsBare "template".toList ∧ IsBare "generator".toList := by decide
    refine Toml.value_braced h ?_ ?_ depth rest
    · simpa [fields] using hbare
    · show ["template".toList, "generator".toList].Nodup
      decide

end Mapping

/-- A key of a settings file with its value. -/
inductive Entry where
  | dir (path : Path)
  | extension (ext : Text)
  | sources (paths : List Path)
  | mappings (ms : List Mapping)

namespace Entry

def key : Entry → Key
  | dir _ => "templates_dir".toList
  | extension _ => "template_extension".toList
  | sources _ => "generator_sources".toList
  | mappings _ => "generators".toList

/-- The ways to write the value of an entry. -/
def Written : Entry → Text → Prop
  | dir path => Quoted path
  | extension ext => Quoted ext
  | sources paths => Listed Quoted paths
  | mappings ms => Listed Mapping.Written ms

def toValue : Entry → Value
  | dir path => .string path
  | extension ext => .string ext
  | sources paths => .array (paths.map .string)
  | mappings ms => .array (ms.map Mapping.toValue)

theorem key_mem_keys (e : Entry) : e.key ∈ Overrides.keys := by
  cases e with
  | dir path => exact List.mem_cons_self
  | extension ext => exact List.mem_cons_of_mem _ List.mem_cons_self
  | sources paths => exact List.mem_cons_of_mem _ (List.mem_cons_of_mem _ List.mem_cons_self)
  | mappings ms =>
      exact List.mem_cons_of_mem _ (List.mem_cons_of_mem _ (List.mem_cons_of_mem _
        List.mem_cons_self))

theorem isBare_key (e : Entry) : IsBare e.key := by
  have hkeys : ∀ k ∈ Overrides.keys, IsBare k := by decide
  exact hkeys e.key e.key_mem_keys

theorem exists_written (e : Entry) : ∃ w, e.Written w := by
  cases e with
  | dir path => exact Toml.exists_quoted path
  | extension ext => exact Toml.exists_quoted ext
  | sources paths => exact Toml.exists_listed Toml.exists_quoted paths
  | mappings ms => exact Toml.exists_listed Mapping.exists_written ms

theorem undoes_written (depth : Nat) : Undoes (Toml.value (depth + 3)) Written toValue where
  starts := by
    rintro (path | ext | paths | ms) w ⟨body, -, rfl⟩
    all_goals exact ⟨_, _, rfl, by decide, by decide⟩
  reads := by
    intro e w rest h hrest
    cases e with
    | dir path => exact Toml.value_quoted h hrest _
    | extension ext => exact Toml.value_quoted h hrest _
    | sources paths => exact Toml.value_listed (Toml.undoes_quoted _) h rest
    | mappings ms => exact Toml.value_listed (Mapping.undoes_mapping _) h rest

end Entry

/-! ## Files -/

/-- The ways to write entries below one another. Every one is on a line of
its own, and a line break may end the last line. -/
inductive Lines : List Entry → Text → Prop
  | nil : Lines [] []
  | lineBreak {b : Text} : IsBreak b → Lines [] b
  | cons {e : Entry} {es : List Entry} {b w more : Text} :
      IsBreak b → Assigned e.key e.Written w → Lines es more → Lines (e :: es) (b ++ (w ++ more))

/-- The ways to write a settings file. -/
inductive Settings.Written : List Entry → Text → Prop
  | intro {es : List Entry} {g₁ g₂ g₃ g₄ lines : Text} :
      IsGap g₁ → IsGap g₂ → IsGap g₃ → IsGap g₄ → Lines es lines →
      Settings.Written es
        (g₁ ++ '[' :: (g₂ ++ ("template_tidy".toList ++ (g₃ ++ ']' :: (g₄ ++ lines)))))

theorem exists_lines (es : List Entry) : ∃ w, Lines es w := by
  induction es with
  | nil => exact ⟨[], .nil⟩
  | cons e es ih =>
      obtain ⟨w, hw⟩ := Toml.exists_assigned (k := e.key) e.exists_written
      obtain ⟨more, hmore⟩ := ih
      exact ⟨_, .cons (.inl rfl) hw hmore⟩

theorem Settings.exists_written (es : List Entry) : ∃ text, Settings.Written es text := by
  obtain ⟨lines, hlines⟩ := exists_lines es
  exact ⟨_, .intro Toml.isGap_nil Toml.isGap_nil Toml.isGap_nil Toml.isGap_nil hlines⟩

def Entry.statement (e : Entry) : Toml.Statement := .assign [] e.key e.toValue

theorem Lines.head?_ne {es : List Entry} {w : Text} (h : Lines es w) : w.head? ≠ some '"' := by
  cases h with
  | nil => simp
  | lineBreak hb => obtain rfl | rfl := hb <;> simp
  | cons hb _ _ => obtain rfl | rfl := hb <;> simp

/-- The line of an entry is read as an assignment, up to the end of the
line. -/
theorem statement_assigned {e : Entry} {c : Char} {t more s : Text} (hc : Toml.isKeyChar c = true)
    (hw : Assigned e.key e.Written (c :: t)) (hmore : more.head? ≠ some '"')
    (hend : Toml.restOfLine more = some s) :
    Toml.statement (c :: (t ++ more)) = some (e.statement, s) := by
  obtain ⟨after, behind, hkey, hvalue, hbehind⟩ :=
    hw.reads (Entry.undoes_written 76) e.isBare_key hmore
  rw [List.cons_append] at hkey
  rw [← Toml.restOfLine_congr hbehind] at hend
  have hbracket : c ≠ '[' := Toml.ne_of_isKeyChar hc (by decide)
  have hdepth : Toml.value (Toml.nestingLimit - 1) (Toml.skipSpace after)
      = some (e.toValue, behind) := hvalue
  rw [Toml.statement]
  · simp only [hkey, Toml.char, if_true, hdepth, hend, Option.bind_eq_bind, Option.bind_some]
    rfl
  · exact fun _ h => hbracket (List.cons.inj h).1
  · exact fun _ h => hbracket (List.cons.inj h).1

/-- What follows a line: the rest of that line is passed over, and the
lines below it are read. -/
theorem Lines.reads {es : List Entry} {w : Text} (h : Lines es w) {fuel : Nat}
    (hfuel : w.length < fuel) :
    ∃ s, Toml.restOfLine w = some s ∧ Toml.statements fuel s = some (es.map Entry.statement) := by
  obtain ⟨fuel, rfl⟩ := Nat.exists_eq_add_one_of_ne_zero (Nat.ne_zero_of_lt hfuel)
  induction h generalizing fuel with
  | nil => exact ⟨[], rfl, rfl⟩
  | @lineBreak b hb =>
      refine ⟨[], ?_, rfl⟩
      rw [← List.append_nil b]
      exact Toml.restOfLine_break hb []
  | @cons e es b w more hb hw hlines ih =>
      -- the line break ends the line above, and `e` is a statement by itself
      have hshort : more.length < fuel := by
        obtain rfl | rfl := hb <;> simp at hfuel <;> omega
      obtain ⟨fuel, rfl⟩ := Nat.exists_eq_add_one_of_ne_zero (Nat.ne_zero_of_lt hshort)
      obtain ⟨s, hend, hread⟩ := ih fuel hshort
      obtain ⟨c, t, hc, htrim, hskip⟩ := hw.trim e.isBare_key
      have hline := statement_assigned hc htrim hlines.head?_ne hend
      refine ⟨w ++ more, Toml.restOfLine_break hb _, ?_⟩
      exact Toml.statements_cons (hskip more) (Toml.isTokenStart_of_isKeyChar hc) hline hread

/-! ## Documents -/

theorem statements_written {es : List Entry} {text : Text} (h : Settings.Written es text)
    {fuel : Nat} (hfuel : text.length ≤ fuel) :
    Toml.statements (fuel + 1) text
      = some (.header [] Overrides.sectionKey :: es.map Entry.statement) := by
  obtain ⟨hg₁, hg₂, hg₃, hg₄, hlines⟩ := h
  rename_i g₁ g₂ g₃ g₄ lines
  have hshort : lines.length < fuel := by
    simp only [List.length_append, List.length_cons] at hfuel
    omega
  obtain ⟨s, hend, hread⟩ := hlines.reads hshort
  have hheader := Toml.statement_header hg₂ (by decide : IsBare "template_tidy".toList) hg₃ hg₄ hend
  refine Toml.statements_cons ?_ (by decide) hheader hread
  rw [Toml.skipSpace_gap hg₁, Toml.skipSpace_cons (by decide)]

theorem dropMark_written {es : List Entry} {text : Text} (h : Settings.Written es text) :
    Toml.Document.dropMark text = text := by
  have hmark : '[' ≠ Toml.Document.byteOrderMark ∧ ' ' ≠ Toml.Document.byteOrderMark
      ∧ '\t' ≠ Toml.Document.byteOrderMark := by decide
  obtain ⟨hg₁, -, -, -, -⟩ := h
  rename_i g₁ _ _ _ _
  refine if_neg ?_
  cases g₁ with
  | nil => simpa using hmark.1
  | cons c g => obtain rfl | rfl := hg₁ c (by simp) <;> simp [hmark]

def Entry.table (es : List Entry) : Table := es.map fun e => (e.key, e.toValue)

theorem Entry.map_fst_table (es : List Entry) : (table es).map (·.1) = es.map key := by
  rw [table, List.map_map]
  rfl

theorem read_written {es : List Entry} {text : Text} (h : Settings.Written es text)
    (hkeys : (es.map Entry.key).Nodup) :
    Toml.Document.read text = some [(Overrides.sectionKey, .table .header (Entry.table es))] := by
  have hnodup : ((Entry.table es).map (·.1)).Nodup := by rwa [Entry.map_fst_table]
  have hrun := Toml.run_assignments (k := Overrides.sectionKey) (t := []) hnodup
  have hassign : es.map Entry.statement = (Entry.table es).map fun e => .assign [] e.1 e.2 := by
    simp [Entry.table, Entry.statement]
  rw [Toml.Document.read, dropMark_written h, statements_written h (Nat.le_refl _)]
  simp only [Option.bind_eq_bind, Option.bind_some, hassign, Toml.Document.run]
  exact hrun

/-! ## Overrides -/

theorem mapM_map_eq {α : Type} {encode : α → Value} {decode : Value → Option α}
    (h : ∀ a, decode (encode a) = some a) (xs : List α) :
    (xs.map encode).mapM decode = some xs := by
  induction xs with
  | nil => rfl
  | cons x xs ih => simp [List.mapM_cons, h, ih]

namespace Overrides

def entries (o : Overrides) : List Entry :=
  o.templatesDir.toList.map .dir ++ o.templateExtension.toList.map .extension
    ++ o.generatorSources.toList.map .sources ++ o.mappings.toList.map .mappings

theorem nodup_keys_entries (o : Overrides) : (o.entries.map Entry.key).Nodup := by
  have hpart : ∀ {α : Type} (x : Option α) (f : α → Entry) (k : Key), (∀ a, (f a).key = k) →
      ((x.toList.map f).map Entry.key).Sublist [k] := by
    intro α x f k hk
    cases x with
    | none => exact List.nil_sublist _
    | some a => simp [hk a]
  have hsub : (o.entries.map Entry.key).Sublist keys := by
    rw [entries, List.map_append, List.map_append, List.map_append]
    exact (((hpart _ .dir dirKey fun _ => rfl).append
      (hpart _ .extension extensionKey fun _ => rfl)).append
      (hpart _ .sources sourcesKey fun _ => rfl)).append
      (hpart _ .mappings mappingsKey fun _ => rfl)
  exact hsub.nodup (by decide)

theorem get?_table_entries (o : Overrides) :
    (Entry.table o.entries).get? dirKey = o.templatesDir.map Value.string
      ∧ (Entry.table o.entries).get? extensionKey = o.templateExtension.map Value.string
      ∧ (Entry.table o.entries).get? sourcesKey
        = o.generatorSources.map (fun paths => Value.array (paths.map .string))
      ∧ (Entry.table o.entries).get? mappingsKey
        = o.mappings.map (fun ms => Value.array (ms.map Mapping.toValue)) := by
  -- which keys are given decides the list, and look-up then computes
  obtain ⟨_ | dir, _ | ext, _ | sources, _ | ms⟩ := o <;> exact ⟨rfl, rfl, rfl, rfl⟩

/-- Entries in any order give the overrides that they are the entries of. -/
theorem ofTable?_of_perm {o : Overrides} {es : List Entry} (h : es.Perm o.entries) :
    ofTable? (Entry.table es) = some o := by
  have hkeys : ((Entry.table es).map (·.1)).Nodup := by
    rw [Entry.map_fst_table]
    exact (h.map _).nodup_iff.mpr o.nodup_keys_entries
  have hall : (Entry.table es).all (fun e => keys.contains e.1) = true := by
    simp [Entry.table, Entry.key_mem_keys]
  have hperm : (Entry.table es).Perm (Entry.table o.entries) := h.map _
  have hget := Table.get?_eq_of_perm hperm hkeys
  obtain ⟨hdir, hext, hsources, hmappings⟩ := o.get?_table_entries
  have hstring : ∀ t, Value.asString? (.string t) = some t := fun _ => rfl
  have hstrings : ∀ ts, Value.asStrings? (.array (ts.map .string)) = some ts :=
    mapM_map_eq hstring
  have hlist : ∀ ms, Mapping.listOfValue? (.array (ms.map Mapping.toValue)) = some ms :=
    mapM_map_eq Mapping.ofValue?_toValue
  rw [ofTable?, if_pos hall, Table.optional_of_get? ((hget _).trans hdir) hstring,
    Table.optional_of_get? ((hget _).trans hext) hstring,
    Table.optional_of_get? ((hget _).trans hsources) hstrings,
    Table.optional_of_get? ((hget _).trans hmappings) hlist]
  rfl

end Overrides

/-! ## Loading -/

theorem Disk.isFile_of_readBytes {d : Disk} {p : Path} {bytes : List UInt8}
    (h : d.readBytes p = .ok bytes) : d.isFile p = true := by
  unfold readBytes at h
  cases hfound : d.resolve p with
  | error fault =>
      rw [hfound] at h
      cases h
  | ok found =>
      obtain ⟨loc, node⟩ := found
      rw [hfound] at h
      cases node with
      | file mode bytes => simp [isFile, find?, hfound, Node.isFile]
      | dir mode => cases h
      | link target => cases h

namespace Settings

theorem readOverrides_written {o : Overrides} {es : List Entry} (h : es.Perm o.entries)
    {text : Text} (hw : Written es text) (path : Path) : readOverrides path text = .ok o := by
  have hkeys : (es.map Entry.key).Nodup := (h.map _).nodup_iff.mpr o.nodup_keys_entries
  have hsection : Table.get? [(Overrides.sectionKey, .table .header (Entry.table es))]
      Overrides.sectionKey = some (.table .header (Entry.table es)) := by
    simp [Table.get?]
  have hvalue : Overrides.ofValue? (.table .header (Entry.table es)) = some o :=
    Overrides.ofTable?_of_perm h
  simp only [readOverrides, read_written hw hkeys, hsection, hvalue]

theorem load_of_readBytes {d : Disk} {root : Path} {config : Option Path} {text : Text}
    (h : d.readBytes (config.getD (root.join fileName)) = .ok (Utf8.encode text)) :
    load d root config
      = readOverrides (config.getD (root.join fileName)) text >>= (default root).override := by
  have hfile : loadFile d root (config.getD (root.join fileName))
      = readOverrides (config.getD (root.join fileName)) text >>= (default root).override := by
    simp only [loadFile, Disk.readText, h, Utf8.decode_encode]
  cases config with
  | some path => exact hfile
  | none =>
      have hthere : d.isFile (root.join fileName) = true := Disk.isFile_of_readBytes h
      rw [← hfile, load, if_pos hthere]
      rfl

theorem stripDots_eq_nil_iff {ext : Text} : stripDots ext = [] ↔ ∀ c ∈ ext, c = '.' := by
  simp [stripDots, List.dropWhile_eq_nil_iff]

theorem eq_dots_append_stripDots (ext : Text) :
    ∃ k, ext = List.replicate k '.' ++ stripDots ext := by
  have hdots : ext.takeWhile (· == '.') = List.replicate (ext.takeWhile (· == '.')).length '.' :=
    List.eq_replicate_of_mem fun c hc => by simpa using List.mem_takeWhile_imp hc
  refine ⟨(ext.takeWhile (· == '.')).length, ?_⟩
  rw [← hdots, stripDots, List.takeWhile_append_dropWhile]

/-- `s` has the values that `o` gives, only that the extension has lost
the dots in front, and those of `base` otherwise. -/
structure IsOverlay (base : Settings) (o : Overrides) (s : Settings) : Prop where
  root : s.root = base.root
  templatesDir : s.templatesDir = o.templatesDir.getD base.templatesDir
  generatorSources : s.generatorSources = o.generatorSources.getD base.generatorSources
  mappings : s.mappings = o.mappings.getD base.mappings
  extension_kept : o.templateExtension = none → s.templateExtension = base.templateExtension
  extension_given : ∀ ext, o.templateExtension = some ext →
    s.templateExtension.head? ≠ some '.' ∧ ∃ k, ext = List.replicate k '.' ++ s.templateExtension

/-- Only an extension that consists of dots is refused. -/
theorem override_cases (s : Settings) (o : Overrides) :
    (∃ ext, o.templateExtension = some ext ∧ (∀ c ∈ ext, c = '.')
        ∧ s.override o = .error .emptyExtension)
      ∨ ∃ s', s.override o = .ok s' ∧ s.IsOverlay o s'
        ∧ ∀ ext, o.templateExtension = some ext → ∃ c ∈ ext, c ≠ '.' := by
  unfold override
  cases hext : o.templateExtension with
  | none =>
      refine .inr ⟨_, rfl, ⟨rfl, rfl, rfl, rfl, fun _ => rfl, ?_⟩, ?_⟩
      · intro ext h
        rw [hext] at h
        cases h
      · intro ext h
        cases h
  | some ext =>
      by_cases hempty : (stripDots ext).isEmpty = true
      · refine .inl ⟨ext, rfl, ?_, by simp only [if_pos hempty]; rfl⟩
        exact stripDots_eq_nil_iff.mp (List.isEmpty_iff.mp hempty)
      · have hne : stripDots ext ≠ [] := fun hnil => hempty (List.isEmpty_iff.mpr hnil)
        simp only [if_neg hempty]
        refine .inr ⟨_, rfl, ⟨rfl, rfl, rfl, rfl, ?_, ?_⟩, ?_⟩
        · intro h
          rw [hext] at h
          cases h
        · intro ext' h
          obtain rfl : ext = ext' := Option.some.inj (hext.symm.trans h)
          exact ⟨head?_stripDots ext, eq_dots_append_stripDots ext⟩
        · rintro ext' h
          obtain rfl := Option.some.inj h
          simpa [stripDots_eq_nil_iff] using hne

/-- **Loading undoes writing.** Overrides can always be written, their keys
in any order. However a file is written for them, it is loaded unless
the extension consists of dots, and gives the settings of the usual layout
with exactly the values that were written, only that the dots in front of
the extension are gone. -/
theorem load_written (root : Path) (config : Option Path) {o : Overrides} {order : List Entry}
    (horder : order.Perm o.entries) :
    (∃ text, Written order text)
      ∧ ∀ text, Written order text →
        ∀ d : Disk, d.readBytes (config.getD (root.join fileName)) = .ok (Utf8.encode text) →
          ((∃ s, load d root config = .ok s) ↔
            ∀ ext, o.templateExtension = some ext → ∃ c ∈ ext, c ≠ '.')
          ∧ ∀ s, load d root config = .ok s → (default root).IsOverlay o s := by
  refine ⟨exists_written order, ?_⟩
  intro text hw d hbytes
  have hload : load d root config = (default root).override o := by
    rw [load_of_readBytes hbytes, readOverrides_written horder hw]
    rfl
  rw [hload]
  rcases (default root).override_cases o with ⟨ext, hext, hdots, hrefused⟩ | ⟨s, hok, hs, hgiven⟩
  · have hnone : ∀ s, (.error .emptyExtension : Except SettingsError Settings) ≠ .ok s := nofun
    rw [hrefused]
    refine ⟨iff_of_false (fun ⟨s, h⟩ => hnone s h) ?_, fun s h => absurd h (hnone s)⟩
    intro hgiven
    obtain ⟨c, hc, hne⟩ := hgiven ext hext
    exact hne (hdots c hc)
  · rw [hok]
    refine ⟨iff_of_true ⟨s, rfl⟩ hgiven, fun s' h => ?_⟩
    obtain rfl := Except.ok.inj h
    exact hs

/-- Overrides with dots, a repeated source and a quote, and no directory. -/
def quotedOverrides : Overrides where
  templatesDir := none
  templateExtension := some "..peb".toList
  generatorSources := some ["x".toList, "x".toList]
  mappings := some [⟨"t".toList, "\"".toList⟩]

/-- Their entries in a settings file, the last first. -/
def quotedText : Text :=
  "[template_tidy]\ngenerators = [\x7btemplate=\"t\", generator=\"\\\"\"\x7d]".toList
    ++ "\ngenerator_sources=[\"x\",\n\"x\",\n]".toList
    ++ "\ntemplate_extension=\".\\u002Epeb\"".toList

theorem written_quotedText : Written quotedOverrides.entries.reverse quotedText := by
  have hgap : IsGap [] := Toml.isGap_nil
  have hspace : IsGap [' '] := by simp [IsGap]
  have hbreak : IsBreak ['\n'] := .inl rfl
  have hx : Quoted "x".toList "\"x\"".toList :=
    Toml.quoted_of_unescaped (List.forall_mem_singleton.mpr (by decide))
  have ht : Quoted "t".toList "\"t\"".toList :=
    Toml.quoted_of_unescaped (List.forall_mem_singleton.mpr (by decide))
  have hquote : Quoted "\"".toList "\"\\\"\"".toList :=
    ⟨_, .cons (.short (by decide)) .nil, rfl⟩
  have hdot : Toml.Hexadecimal (16 * (16 * (16 * (16 * 0 + 0) + 0) + 2) + 14)
      (((([] ++ ['0']) ++ ['0']) ++ ['2']) ++ ['E']) :=
    .snoc (.snoc (.snoc (.snoc .nil (by decide)) (by decide)) (by decide)) (by decide)
  have hext : Quoted "..peb".toList "\".\\u002Epeb\"".toList :=
    ⟨_, .cons (.plain (by decide)) (.cons (.four hdot rfl) (.cons (.plain (by decide))
      (.cons (.plain (by decide)) (.cons (.plain (by decide)) .nil)))), rfl⟩
  have hmappings : (Entry.mappings [⟨"t".toList, "\"".toList⟩]).Written
      "[\x7btemplate=\"t\", generator=\"\\\"\"\x7d]".toList :=
    ⟨_, .last .nil ⟨_, .cons (.intro hgap hgap hgap ht hgap)
      (.last (.intro hspace hgap hgap hquote hgap)), rfl⟩ .nil, rfl⟩
  have hsources : (Entry.sources ["x".toList, "x".toList]).Written
      "[\"x\",\n\"x\",\n]".toList :=
    ⟨_, .cons .nil hx .nil (.cons (.lineBreak hbreak .nil) hx .nil
      (.nil (.lineBreak hbreak .nil))), rfl⟩
  have hlines := Lines.cons hbreak (.intro hgap hspace hspace hmappings hgap)
    (.cons hbreak (.intro hgap hgap hgap hsources hgap)
    (.cons (e := .extension "..peb".toList) hbreak (.intro hgap hgap hgap hext hgap) .nil))
  have hfile := Written.intro hgap hgap hgap hgap hlines
  refine Eq.subst (motive := Written _) ?_ hfile
  decide +kernel

/-- A disk whose working directory holds nothing but a settings file. -/
def holding (text : Text) : Disk where
  nodes :=
    [(["work".toList], .dir Node.dirMode),
     (["work".toList, fileName], .file Node.fileMode (Utf8.encode text))]
  drafts := []
  workDir := ["work".toList]
  distinct := by simp

theorem load_written_quoted :
    Written quotedOverrides.entries.reverse quotedText
      ∧ ∃ s, load (holding quotedText) Path.selfName none = .ok s
        ∧ (default Path.selfName).IsOverlay quotedOverrides s := by
  have horder : quotedOverrides.entries.reverse.Perm quotedOverrides.entries :=
    List.reverse_perm _
  obtain ⟨hloads, hvalues⟩ := (load_written Path.selfName none horder).2 quotedText
    written_quotedText (holding quotedText) rfl
  have hgiven : ∀ ext, quotedOverrides.templateExtension = some ext → ∃ c ∈ ext, c ≠ '.' := by
    intro ext hext
    obtain rfl := Option.some.inj hext
    exact ⟨'p', by decide, by decide⟩
  obtain ⟨s, hs⟩ := hloads.mpr hgiven
  exact ⟨written_quotedText, s, hs, hvalues s hs⟩

end Settings

end Upkeep
