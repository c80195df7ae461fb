import PmxAgents.Lib.Checks
import PmxAgents.Storage.Nfs

/-!
# The listing of the shares

The files of the exports directory represent the mapping that the accepted calls have
asked for: every call keeps this relation. The listing reads a line back as it was
written exactly if the path has no white space, and one line that is read differently
is enough to lose the mapping.
-/

namespace PmxAgents.Storage.Nfs

open Lib Lib.Text Lib.FileSystem

/-! ## What the checks accept -/

/-- The characters of a word of the line that do not separate anything. -/
def Solid (s : String) : Prop :=
  s ≠ "" ∧ ∀ c ∈ s.toList, isSpace c = false ∧ c ≠ '(' ∧ c ≠ ')' ∧ c ≠ ','

instance (s : String) : Decidable (Solid s) :=
  @instDecidableAnd _ _ _ (List.decidableBAll _ _)

/-- What a share exports, as far as the checks of a call guarantee it. -/
structure Accepted (e : Export) : Prop where
  path : e.path.toList.head? = some '/'
  network : Solid e.network
  options_ne_nil : e.options ≠ []
  options : ∀ opt ∈ e.options, Solid opt

theorem solid_of_allowed {opt : String} (h : opt ∈ allowedOptions) : Solid opt := by
  revert opt
  decide

theorem mem_normalise {out opts r : List String} (h : normalise out opts = .ok r) :
    (∀ opt ∈ r, opt ∈ out ∨ opt ∈ allowedOptions) ∧ out ⊆ r ∧ (opts ≠ [] → r ≠ []) := by
  induction opts generalizing out with
  | nil =>
      obtain rfl := Except.ok.inj h
      exact ⟨fun opt hopt => Or.inl hopt, List.Subset.refl _, fun hne => absurd rfl hne⟩
  | cons opt opts ih =>
      rw [normalise, Checks.ite_error_eq_ok, not_not] at h
      obtain ⟨hallowed, hrest⟩ := h
      obtain ⟨hmem, hsub, -⟩ := ih hrest
      have hopt : trimSpace opt ∈ if trimSpace opt ∈ out then out else out ++ [trimSpace opt] := by
        split_ifs with hout
        · exact hout
        · simp
      have hout : out ⊆ if trimSpace opt ∈ out then out else out ++ [trimSpace opt] := by
        split_ifs <;> simp
      refine ⟨fun o ho => ?_, fun o ho => hsub (hout ho), fun _ => ?_⟩
      · rcases hmem o ho with ho | ho
        · split_ifs at ho
          · exact Or.inl ho
          · rcases List.mem_append.mp ho with ho | ho
            · exact Or.inl ho
            · exact Or.inr (List.mem_singleton.mp ho ▸ hallowed)
        · exact Or.inr ho
      · exact List.ne_nil_of_mem (hsub hopt)

theorem solid_of_validateOptions {options r : List String} (h : validateOptions options = .ok r) :
    r ≠ [] ∧ ∀ opt ∈ r, Solid opt := by
  rw [validateOptions] at h
  split_ifs at h with hnil
  · obtain rfl := Except.ok.inj h
    decide
  · cases hnorm : normalise [] options with
    | error err => rw [hnorm] at h; cases h
    | ok out =>
        rw [hnorm] at h
        obtain rfl : out.insertionSort nameLe = r := Except.ok.inj h
        obtain ⟨hmem, -, hne⟩ := mem_normalise hnorm
        have hperm := List.perm_insertionSort nameLe out
        refine ⟨fun heq => hne hnil ((heq ▸ hperm).nil_eq.symm), fun opt hopt => ?_⟩
        rcases hmem opt (hperm.mem_iff.mp hopt) with hout | hallowed
        · cases hout
        · exact solid_of_allowed hallowed

/-- From the dash to the tilde no character separates anything. -/
theorem not_separator {c : Char} (hlow : 45 ≤ c.toNat) (hhigh : c.toNat ≤ 126) :
    isSpace c = false ∧ c ≠ '(' ∧ c ≠ ')' ∧ c ≠ ',' := by
  refine ⟨?_, ?_, ?_, ?_⟩
  · simp only [isSpace, Bool.or_eq_false_iff, Bool.and_eq_false_iff, decide_eq_false_iff_not,
      beq_eq_false_iff_ne]
    omega
  all_goals
    rintro rfl
    revert hlow
    decide

theorem not_separator_of_isAddrChar {c : Char} (h : IpText.isAddrChar c) :
    isSpace c = false ∧ c ≠ '(' ∧ c ≠ ')' ∧ c ≠ ',' := by
  have hval : c.toNat = c.val.toNat := rfl
  have hrange : 45 ≤ c.toNat ∧ c.toNat ≤ 126 := by
    simp only [IpText.isAddrChar, IpText.isHexDigit, Char.isDigit, Bool.or_eq_true,
      Bool.and_eq_true, decide_eq_true_eq, beq_iff_eq, Char.le_def, UInt32.le_iff_toNat_le,
      ge_iff_le, Char.reduceVal, UInt32.reduceToNat] at h
    rcases h with (((h | h) | h) | rfl) | rfl
    · omega
    · omega
    · omega
    · decide
    · decide
  exact not_separator hrange.1 hrange.2

theorem solid_of_isValidNetwork {v : String} (h : isValidNetwork v) : Solid v := by
  rcases of_decide_eq_true h with rfl | hcidr
  · decide
  · obtain ⟨cidr, hparse⟩ := Option.isSome_iff_exists.mp hcidr
    refine ⟨?_, fun c hc => ?_⟩
    · rintro rfl
      revert hcidr
      decide
    · rcases IpText.parseCIDR_chars hparse c hc with haddr | rfl
      · exact not_separator_of_isAddrChar haddr
      · decide

theorem accepted_of_checkShare {p : ShareParams} {pathExists : Bool} {e : Export}
    (h : checkShare p pathExists = .ok e) : Accepted e := by
  simp only [checkShare, Checks.ite_error_eq_ok, not_not] at h
  obtain ⟨-, hpath, -, hnetwork, hoptions⟩ := h
  cases hvalid : validateOptions p.options with
  | error err => rw [hvalid] at hoptions; cases hoptions
  | ok options =>
      rw [hvalid] at hoptions
      obtain rfl := Except.ok.inj hoptions
      obtain ⟨hne, hsolid⟩ := solid_of_validateOptions hvalid
      exact ⟨(of_decide_eq_true hpath).1, solid_of_isValidNetwork hnetwork, hne, hsolid⟩

/-! ## Reading a line back -/

/-- The path has no white space. -/
def Export.Unbroken (e : Export) : Prop := ∀ c ∈ e.path.toList, isSpace c = false

instance (e : Export) : Decidable e.Unbroken := List.decidableBAll _ _

/-- The second word of a line. -/
def Export.client (e : Export) : List Char :=
  e.network.toList ++ '(' :: ([','].intercalate (e.options.map String.toList) ++ [')'])

section RoundTrip
variable {e : Export}

theorem content_eq (e : Export) : e.content = e.path.toList ++ ' ' :: (e.client ++ ['\n']) := by
  simp [Export.content, Export.client]

theorem beforeLastClose_append (s : List Char) : beforeLastClose (s ++ [')']) = s := by
  simp [beforeLastClose]

theorem Accepted.network_paren (h : Accepted e) : '(' ∉ e.network.toList :=
  fun hmem => (h.network.2 _ hmem).2.1 rfl

theorem Accepted.options_comma (h : Accepted e) : ∀ w ∈ e.options.map String.toList, ',' ∉ w := by
  intro w hw hmem
  obtain ⟨opt, hopt, rfl⟩ := List.mem_map.mp hw
  exact ((h.options opt hopt).2 _ hmem).2.2.2 rfl

theorem Accepted.intercalate_ne_nil (h : Accepted e) :
    [','].intercalate (e.options.map String.toList) ≠ [] := by
  intro hnil
  have hsplit := split_intercalate (by simpa using h.options_ne_nil) h.options_comma
  rw [hnil] at hsplit
  have hempty : [] ∈ e.options.map String.toList := hsplit ▸ List.mem_singleton_self _
  obtain ⟨opt, hopt, heq⟩ := List.mem_map.mp hempty
  exact (h.options opt hopt).1 (String.toList_inj.mp heq)

theorem Accepted.parseClient_client (h : Accepted e) :
    parseClient e.client = .ok (e.network.toList, e.options.map String.toList) := by
  have hbefore : before '(' e.client = e.network.toList := before_append h.network_paren _
  have hrest : e.client.drop (e.network.toList.length + 1) =
      [','].intercalate (e.options.map String.toList) ++ [')'] := by
    rw [Export.client, List.drop_append, List.drop_of_length_le (by omega), List.nil_append,
      Nat.add_sub_cancel_left, List.drop_succ_cons, List.drop_zero]
  have hne : e.network.toList ≠ [] := fun hnil => h.network.1 (String.toList_inj.mp hnil)
  rw [parseClient]
  simp only [hbefore, hrest, beforeLastClose_append]
  rw [if_neg (by simp [Export.client, hne]), if_neg h.intercalate_ne_nil,
    split_intercalate (by simpa using h.options_ne_nil) h.options_comma]

theorem Accepted.client_unbroken (h : Accepted e) : ∀ c ∈ e.client, isSpace c = false := by
  intro c hc
  rcases List.mem_append.mp hc with hc | hc
  · exact (h.network.2 c hc).1
  · obtain rfl | hc | rfl : c = '(' ∨ c ∈ [','].intercalate (e.options.map String.toList) ∨
      c = ')' := by
      simpa using hc
    · decide
    · have hsplit := split_intercalate (by simpa using h.options_ne_nil) h.options_comma
      obtain rfl | ⟨w, hw, hcw⟩ : c = ',' ∨ ∃ w ∈ split ',' _, c ∈ w := mem_split hc
      · decide
      · rw [hsplit] at hw
        obtain ⟨opt, hopt, rfl⟩ := List.mem_map.mp hw
        exact ((h.options opt hopt).2 c hcw).1
    · decide

theorem Accepted.trim_content (h : Accepted e) :
    trim e.content = e.path.toList ++ ' ' :: e.client := by
  obtain ⟨rest, hrest⟩ := List.head?_eq_some_iff.mp h.path
  have happend : ∀ ending : List Char, e.path.toList ++ ' ' :: (e.network.toList ++
      '(' :: ([','].intercalate (e.options.map String.toList) ++ ')' :: ending)) =
      '/' :: ((rest ++ ' ' :: (e.network.toList ++
        '(' :: [','].intercalate (e.options.map String.toList))) ++ ')' :: ending) := by
    intro ending
    simp [hrest]
  rw [Export.content, Export.client, happend, happend]
  exact trim_append_space (by decide) (by decide) (by decide) _

theorem Accepted.parseLine_content (h : Accepted e) (hpath : e.Unbroken) :
    parseLine (trim e.content) = .ok e := by
  have hne : e.path.toList ≠ [] := fun hnil => by simpa [hnil] using h.path
  have hclient : e.client ≠ [] := by simp [Export.client]
  have hfields : fields (e.path.toList ++ ' ' :: e.client) = [e.path.toList, e.client] := by
    rw [fields_append_space (by decide), fields_of_word hne hpath,
      fields_of_word hclient h.client_unbroken]
    rfl
  rw [h.trim_content, parseLine, hfields]
  simp [h.parseClient_client, Except.map]

/-- A path that is read from a line has no white space. -/
theorem unbroken_of_parseLine {line : List Char} (h : parseLine line = .ok e) : e.Unbroken := by
  rw [parseLine] at h
  split at h
  · rename_i path netAndOpts hfields
    cases hclient : parseClient netAndOpts with
    | error err => rw [hclient] at h; cases h
    | ok client =>
        rw [hclient] at h
        obtain rfl := Except.ok.inj h
        intro c hc
        have hmem : path ∈ fields line := hfields ▸ List.mem_cons_self
        exact isSpace_of_mem_fields hmem c (by simpa using hc)
  · cases h

/-! ## What is exported -/

theorem wordsBy_of_word {sep : Char → Bool} {w : List Char} (hne : w ≠ [])
    (hw : ∀ c ∈ w, sep c = false) : wordsBy sep w = [w] := by
  rw [wordsBy, List.splitOnP_eq_singleton fun c hc => by simp [hw c hc]]
  simp [hne]

theorem Accepted.exportsOf_content (h : Accepted e) (hpath : e.Unbroken) :
    exportsOf e.content = [(e.path, e.network)] := by
  have hne : e.path.toList ≠ [] := fun hnil => by simpa [hnil] using h.path
  have hclient : e.client ≠ [] := by simp [Export.client]
  have hblank : ∀ w : List Char, (∀ c ∈ w, isSpace c = false) →
      ∀ c ∈ w, (c == ' ' || c == '\t') = false := by
    intro w hw c hc
    have hcs := hw c hc
    simp only [Bool.or_eq_false_iff, beq_eq_false_iff_ne]
    constructor <;> rintro rfl <;> revert hcs <;> decide
  have hline : '\n' ∉ e.path.toList ++ ' ' :: e.client := by
    intro hmem
    obtain hmem | hmem : '\n' ∈ e.path.toList ∨ '\n' ∈ e.client := by simpa using hmem
    · exact absurd (hpath _ hmem) (by decide)
    · exact absurd (h.client_unbroken _ hmem) (by decide)
  have hwords : wordsBy (fun c => c == ' ' || c == '\t') (e.path.toList ++ ' ' :: e.client) =
      [e.path.toList, e.client] := by
    rw [wordsBy_append_sep (by decide), wordsBy_of_word hne (hblank _ hpath),
      wordsBy_of_word hclient (hblank _ h.client_unbroken)]
    rfl
  have hcontent : e.content = (e.path.toList ++ ' ' :: e.client) ++ '\n' :: [] := by
    simp [content_eq]
  have hbefore : before '(' e.client = e.network.toList := before_append h.network_paren _
  calc
    exportsOf e.content
      = lineExports (e.path.toList ++ ' ' :: e.client) ++ lineExports [] := by
        rw [exportsOf, hcontent, split_append_sep, split_of_not_mem hline]
        simp [split]
    _ = [(e.path, e.network)] := by
        rw [lineExports, hwords]
        simp [hbefore, lineExports, wordsBy]

end RoundTrip

/-! ## The files of a mapping -/

theorem trimPrefix_append (start s : String) : trimPrefix (start ++ s) start = s := by
  rw [trimPrefix, if_pos (by simp), String.toList_append, List.drop_left, String.ofList_toList]

theorem shareId_fileName (dir : Path) (id : String) : shareId (dir ++ [fileName id]) = id := by
  rw [shareId, List.getLast?_concat, Option.getD_some, fileName, String.append_assoc,
    trimPrefix_append, trimSuffix_append]

theorem file_injective (dir : Path) : Function.Injective fun id => dir ++ [fileName id] := by
  intro id id' h
  rw [← shareId_fileName dir id, ← shareId_fileName dir id']
  exact congrArg shareId h

/-- The pattern of the listing finds the names of the files of shares. -/
theorem compile_pattern : Glob.compile "pmx-*.exports" =
    some ("pmx-".toList.map .lit ++ .star :: ".exports".toList.map .lit) := rfl

theorem matches_pattern (name : String) :
    Glob.Matches ("pmx-".toList.map .lit ++ .star :: ".exports".toList.map .lit) name.toList ↔
      ∃ id, name = fileName id := by
  rw [Glob.matches_star_between]
  constructor
  · rintro ⟨t, ht⟩
    exact ⟨String.ofList t, String.toList_inj.mp (by simp [fileName, ht])⟩
  · rintro ⟨id, rfl⟩
    exact ⟨id.toList, by simp [fileName]⟩

/-- The files of shares in the directory are those of the mapping, which holds accepted exports. -/
structure Represents (dir : Path) (files : Files) (m : Mapping) : Prop where
  lookup : ∀ id, files.lookup (dir ++ [fileName id]) = (m id).map Export.content
  accepted : ∀ id e, m id = some e → Accepted e

section Histories
variable {dir : Path} {files : Files} {m : Mapping}

theorem Represents.update_some {e : Export} (h : Represents dir files m) (he : Accepted e)
    (id : String) :
    Represents dir (files.insert (dir ++ [fileName id]) e.content)
      (Function.update m id (some e)) where
  lookup id' := by
    by_cases hid : id' = id
    · subst hid
      rw [AList.lookup_insert, Function.update_self, Option.map_some]
    · rw [AList.lookup_insert_ne ((file_injective dir).ne hid), Function.update_of_ne hid,
        h.lookup]
  accepted id' e' he' := by
    by_cases hid : id' = id
    · subst hid
      rw [Function.update_self] at he'
      exact Option.some.inj he' ▸ he
    · rw [Function.update_of_ne hid] at he'
      exact h.accepted id' e' he'

theorem Represents.update_none (h : Represents dir files m) (id : String) :
    Represents dir (files.erase (dir ++ [fileName id])) (Function.update m id none) where
  lookup id' := by
    by_cases hid : id' = id
    · subst hid
      rw [AList.lookup_erase, Function.update_self, Option.map_none]
    · rw [AList.lookup_erase_ne ((file_injective dir).ne hid), Function.update_of_ne hid,
        h.lookup]
  accepted id' e' he' := by
    by_cases hid : id' = id
    · subst hid
      rw [Function.update_self] at he'
      cases he'
    · rw [Function.update_of_ne hid] at he'
      exact h.accepted id' e' he'

/-- One call, accepted or refused, changes the files as it changes the mapping. -/
theorem Represents.step (h : Represents dir files m) (call : Call) :
    Represents dir (Nfs.step dir files call) (record m call) := by
  cases call with
  | create p pathExists =>
      rw [Nfs.step, record, shareCreate]
      cases hcheck : checkShare p pathExists with
      | error err => exact h
      | ok e => exact h.update_some (accepted_of_checkShare hcheck) p.id
  | delete id =>
      rw [Nfs.step, record, shareDelete]
      by_cases hid : isSafeID id = true
      · rw [if_neg (not_not.mpr hid), if_pos hid]
        exact h.update_none id
      · rw [if_pos hid, if_neg hid]
        exact h

theorem Represents.run (h : Represents dir files m) (calls : List Call) :
    Represents dir (Nfs.run dir files calls) (calls.foldl record m) := by
  induction calls generalizing files m with
  | nil => exact h
  | cons call calls ih => exact ih (h.step call)

/-- A directory without files of shares. -/
theorem represents_empty (h : ∀ id, files.lookup (dir ++ [fileName id]) = none) :
    Represents dir files fun _ => none :=
  ⟨h, fun _ _ he => by cases he⟩

/-! ## The listing -/

theorem Represents.glob (h : Represents dir files m) (hdir : ∀ c ∈ dir, Glob.Literal c) :
    ∃ found, Glob.glob (dir ++ ["pmx-*.exports"]) files.keys = some found ∧ found.Nodup ∧
      ∀ p, p ∈ found ↔ ∃ id e, m id = some e ∧ p = dir ++ [fileName id] := by
  obtain ⟨found, hfound, hmem, hnodup⟩ := Glob.glob_dir hdir compile_pattern files.keys
  refine ⟨found, hfound, hnodup files.keys_nodup, fun p => ?_⟩
  rw [hmem]
  constructor
  · rintro ⟨hkey, name, rfl, hname⟩
    obtain ⟨id, rfl⟩ := (matches_pattern name).mp hname
    have hsome := AList.lookup_isSome.mpr hkey
    rw [h.lookup, Option.isSome_map] at hsome
    obtain ⟨e, he⟩ := Option.isSome_iff_exists.mp hsome
    exact ⟨id, e, he, rfl⟩
  · rintro ⟨id, e, he, rfl⟩
    refine ⟨AList.lookup_isSome.mp ?_, fileName id, rfl, (matches_pattern _).mpr ⟨id, rfl⟩⟩
    rw [h.lookup, he]
    rfl

/-- The listing of an export. -/
def Export.share (e : Export) (id : String) : Share := ⟨id, e.path, e.network, e.options⟩

theorem Represents.readShare (h : Represents dir files m) {id : String} {e : Export}
    (he : m id = some e) (hpath : e.Unbroken) :
    Nfs.readShare files (dir ++ [fileName id]) = .ok (some (e.share id)) := by
  have haccepted := h.accepted id e he
  have hne : trim e.content ≠ [] := by simp [haccepted.trim_content]
  have hlookup : files.lookup (dir ++ [fileName id]) = some e.content := by rw [h.lookup, he]; rfl
  rw [Nfs.readShare, hlookup]
  dsimp only
  rw [if_neg hne, haccepted.parseLine_content hpath, shareId_fileName]
  rfl

/-- A share that is listed was read from a line. -/
theorem unbroken_of_readShare {file : Path} {s : Share} (h : readShare files file = .ok (some s)) :
    ∀ c ∈ s.path.toList, isSpace c = false := by
  rw [readShare] at h
  split at h
  · cases h
  · split_ifs at h
    · cases h
    split at h
    · cases h
    · rename_i e hparse
      obtain rfl := Option.some.inj (Except.ok.inj h)
      exact unbroken_of_parseLine hparse

theorem unbroken_of_shareList {shares : List Share} (h : shareList dir files = .ok shares) :
    ∀ s ∈ shares, ∀ c ∈ s.path.toList, isSpace c = false := by
  rw [shareList] at h
  split at h
  · cases h
  · rename_i found hfound
    cases hread : (found.insertionSort pathLe).mapM (readShare files) with
    | error err => rw [hread] at h; cases h
    | ok read =>
        rw [hread] at h
        obtain rfl := Except.ok.inj h
        intro s hs
        obtain ⟨i, hi, hsome⟩ := List.mem_filterMap.mp hs
        obtain rfl : i = some s := hsome
        obtain ⟨file, -, hfile⟩ := Checks.exists_of_mem_mapM hread hi
        exact unbroken_of_readShare hfile

/-- The listing succeeds and names the shares of the mapping, each once; every file of a share
exports the path of its share to the network of its share and nothing else. -/
structure Faithful (dir : Path) (files : Files) (m : Mapping) : Prop where
  list : ∃ shares, shareList dir files = .ok shares ∧ (shares.map Share.id).Nodup ∧
    ∀ s, s ∈ shares ↔ m s.id = some ⟨s.path, s.network, s.options⟩
  files : ∀ id data, files.lookup (dir ++ [fileName id]) = some data →
    ∃ e, m id = some e ∧ exportsOf data = [(e.path, e.network)]

/-- The share that is read from a file. -/
def listed (m : Mapping) (file : Path) : Share :=
  match m (shareId file) with
  | some e => e.share (shareId file)
  | none => ⟨shareId file, "", "", []⟩

theorem listed_id (m : Mapping) (file : Path) : (listed m file).id = shareId file := by
  unfold listed
  split <;> simp only [Export.share]

theorem listed_fileName {id : String} {e : Export} (he : m id = some e) :
    listed m (dir ++ [fileName id]) = e.share id := by
  rw [listed, shareId_fileName, he]

theorem Represents.list (h : Represents dir files m) (hdir : ∀ c ∈ dir, Glob.Literal c)
    (hpaths : ∀ id e, m id = some e → e.Unbroken) :
    ∃ shares, shareList dir files = .ok shares ∧ (shares.map Share.id).Nodup ∧
      ∀ s, s ∈ shares ↔ m s.id = some ⟨s.path, s.network, s.options⟩ := by
  obtain ⟨found, hfound, hnodup, hmem⟩ := h.glob hdir
  have hperm := List.perm_insertionSort pathLe found
  have hread : ∀ p ∈ found.insertionSort pathLe,
      Nfs.readShare files p = .ok (some (listed m p)) := by
    intro p hp
    obtain ⟨id, e, he, rfl⟩ := (hmem p).mp (hperm.mem_iff.mp hp)
    rw [h.readShare he (hpaths id e he), listed_fileName he]
  refine ⟨(found.insertionSort pathLe).map (listed m), ?_, ?_, fun s => ?_⟩
  · rw [shareList, hfound]
    simp [Checks.mapM_eq_ok_map hread, Except.map, List.filterMap_map]
  · rw [List.map_map]
    refine List.Nodup.map_on ?_ (hperm.nodup_iff.mpr hnodup)
    intro p hp q hq heq
    obtain ⟨id, e, -, rfl⟩ := (hmem p).mp (hperm.mem_iff.mp hp)
    obtain ⟨id', e', -, rfl⟩ := (hmem q).mp (hperm.mem_iff.mp hq)
    simp only [Function.comp_apply, listed_id, shareId_fileName] at heq
    rw [heq]
  · rw [List.mem_map]
    constructor
    · rintro ⟨p, hp, rfl⟩
      obtain ⟨id, e, he, rfl⟩ := (hmem p).mp (hperm.mem_iff.mp hp)
      rw [listed_fileName he]
      exact he
    · intro hs
      refine ⟨dir ++ [fileName s.id], hperm.mem_iff.mpr ((hmem _).mpr ⟨s.id, _, hs, rfl⟩), ?_⟩
      rw [listed_fileName hs]
      rfl

theorem Represents.faithful_iff_unbroken (h : Represents dir files m)
    (hdir : ∀ c ∈ dir, Glob.Literal c) :
    Faithful dir files m ↔ ∀ id e, m id = some e → e.Unbroken := by
  constructor
  · rintro ⟨⟨shares, hshares, -, hmem⟩, -⟩ id e he
    exact unbroken_of_shareList hshares (e.share id) ((hmem _).mpr he)
  · intro hpaths
    refine ⟨h.list hdir hpaths, fun id data hdata => ?_⟩
    rw [h.lookup] at hdata
    obtain ⟨e, he, rfl⟩ := Option.map_eq_some_iff.mp hdata
    exact ⟨e, he, (h.accepted id e he).exportsOf_content (hpaths id e he)⟩

end Histories

/-- After every history of calls on a directory without special characters in its name, the
listing is the mapping and the files export what was asked for exactly if no path of the mapping
has white space. -/
theorem faithful_run_iff {dir : Path} (hdir : ∀ c ∈ dir, Glob.Literal c) {files : Files}
    (hfiles : ∀ id, files.lookup (dir ++ [fileName id]) = none) (calls : List Call) :
    Faithful dir (run dir files calls) (requested calls) ↔
      ∀ id e, requested calls id = some e → e.Unbroken :=
  ((represents_empty hfiles).run calls).faithful_iff_unbroken hdir

/-- A share of a directory with a space in its name. -/
def spaced : Call := .create ⟨"media", "/mnt/my share", "10.0.0.0/24", ["ro"]⟩ true

def plain : Call := .create ⟨"backup", "/srv/backup", "*", [" rw", "sync", "rw"]⟩ true

/-- Without the share with the space the listing names what is left. -/
theorem faithful_after_delete :
    Faithful ["etc", "exports.d"] (run ["etc", "exports.d"] ∅ [plain, spaced, .delete "media"])
      (requested [plain, spaced, .delete "media"]) := by
  refine (faithful_run_iff (by decide) (fun _ => rfl) _).mpr fun id e he => ?_
  have hplain : checkShare ⟨"backup", "/srv/backup", "*", [" rw", "sync", "rw"]⟩ true =
      .ok ⟨"/srv/backup", "*", ["rw", "sync"]⟩ := by decide
  have hspaced : checkShare ⟨"media", "/mnt/my share", "10.0.0.0/24", ["ro"]⟩ true =
      .ok ⟨"/mnt/my share", "10.0.0.0/24", ["ro"]⟩ := by decide
  have hid : isSafeID "media" = true := by decide
  have hmapping : requested [plain, spaced, .delete "media"] = Function.update (Function.update
      (Function.update (fun _ => none) "backup" (some ⟨"/srv/backup", "*", ["rw", "sync"]⟩)) "media"
      (some ⟨"/mnt/my share", "10.0.0.0/24", ["ro"]⟩)) "media" none := by
    simp [requested, plain, spaced, record, hplain, hspaced, hid]
  rw [hmapping, Function.update_idem] at he
  by_cases hmedia : id = "media"
  · rw [hmedia, Function.update_self] at he
    cases he
  · rw [Function.update_of_ne hmedia] at he
    by_cases hbackup : id = "backup"
    · rw [hbackup, Function.update_self] at he
      obtain rfl := Option.some.inj he
      decide
    · rw [Function.update_of_ne hbackup] at he
      cases he

/-- The directory is accepted, and then the listing fails. -/
theorem spaced_not_listed :
    shareList ["etc", "exports.d"] (run ["etc", "exports.d"] ∅ [spaced]) =
        .error (.unparsable ["etc", "exports.d", "pmx-media.exports"] .invalidLine) ∧
      ¬ Faithful ["etc", "exports.d"] (run ["etc", "exports.d"] ∅ [spaced])
        (requested [spaced]) := by
  have herror : shareList ["etc", "exports.d"] (run ["etc", "exports.d"] ∅ [spaced]) =
      .error (.unparsable ["etc", "exports.d", "pmx-media.exports"] .invalidLine) := by
    decide
  refine ⟨herror, fun h => ?_⟩
  obtain ⟨shares, hshares, -⟩ := h.list
  rw [herror] at hshares
  cases hshares

end PmxAgents.Storage.Nfs
