/-
Reading a folder does not depend on how it was filled
(`Setup.readDescriptions_canonical`). What counts is which files with a name
like `graph_26.json` are in it (`Considered`): they are read in the order of the
bytes of their names, up to the first one that holds no description, and other
entries are passed over.

The names in a folder are distinct, so these files can be sorted in one way
only. From there on everything is a run over a list, which succeeds if each
step does, and otherwise fails at the first step that does not.
-/
import FlowPricing.Setup.Descriptions
import FlowPricing.Proofs.Action
import FlowPricing.Proofs.Files
import FlowPricing.Proofs.Network.DescriptionJson
import Mathlib.Data.List.Induction
import Mathlib.Data.List.Nodup

namespace FlowPricing

/-- A folder in which entries are created, one after another. -/
def Folder.filled (entries : List (String × Entry)) : Folder :=
  entries.foldl (fun folder e => folder.put e.1 e.2) []

/-- Under different names, nothing is replaced. -/
theorem Folder.filled_eq {entries : Folder} (h : (entries.map Prod.fst).Nodup) :
    Folder.filled entries = entries := by
  unfold filled
  induction entries using List.reverseRecOn with
  | nil => rfl
  | append_singleton entries e ih =>
      rw [List.map_append, List.nodup_append] at h
      obtain ⟨hentries, -, hnew⟩ := h
      rw [List.foldl_append, ih hentries]
      have hkept : entries.filter (·.1 != e.1) = entries := by
        rw [List.filter_eq_self]
        intro x hx
        have hne := hnew x.1 (List.mem_map_of_mem hx) e.1 List.mem_cons_self
        simpa using hne
      show entries.filter (·.1 != e.1) ++ [(e.1, e.2)] = _
      rw [hkept]

namespace Setup

open Json (Bytes Fault)

variable {folder entries more : Folder} {file : String × Bytes}
  {d : Description}

-- ======================================================== which files

/-- A file that is meant to hold a description: its name ends in `.json`, and
something stands before that. -/
structure Considered (folder : Folder) (file : String × Bytes) : Prop where
  inside : (file.1, Entry.file file.2) ∈ folder
  named : ∃ stem, stem ≠ "" ∧ file.1 = stem ++ ".json"

/-- A name has the extension if it ends in it and there is something before.
-/
theorem extension?_eq_json {name : String} :
    extension? name = some "json"
      ↔ ∃ stem, stem ≠ "" ∧ name = stem ++ ".json" := by
  rw [extension?_eq_some_iff, and_iff_right (by decide)]
  simp only [String.append_assoc]
  rfl

/-- The files that are read are those that count. -/
theorem mem_descriptionFiles :
    file ∈ descriptionFiles folder ↔ Considered folder file := by
  unfold descriptionFiles
  rw [List.mem_filterMap]
  constructor
  · intro h
    obtain ⟨⟨name, entry⟩, hin, h⟩ := h
    cases entry with
    | folder inner => exact nomatch h
    | file content =>
        obtain ⟨hname, heq⟩ := Option.ite_none_right_eq_some.1 h
        obtain rfl := Option.some.inj heq
        exact ⟨hin, extension?_eq_json.1 hname⟩
  · intro h
    refine ⟨_, h.inside, ?_⟩
    exact if_pos (extension?_eq_json.2 h.named)

/-- The files in the order in which they are read. -/
def sortedFiles (folder : Folder) : List (String × Bytes) :=
  (descriptionFiles folder).mergeSort fun a b => a.1 ≤ b.1

/-- Sorting them neither adds nor drops one. -/
theorem mem_sortedFiles :
    file ∈ sortedFiles folder ↔ Considered folder file := by
  rw [sortedFiles, List.mem_mergeSort, mem_descriptionFiles]

/-- They are read in the order of their names. -/
theorem sortedFiles_sorted (folder : Folder) :
    (sortedFiles folder).Pairwise fun a b => a.1 ≤ b.1 := by
  have htrans : ∀ a b c : String × Bytes,
      decide (a.1 ≤ b.1) = true → decide (b.1 ≤ c.1) = true →
        decide (a.1 ≤ c.1) = true :=
    fun a b c hab hbc =>
      decide_eq_true
        (String.le_trans (of_decide_eq_true hab) (of_decide_eq_true hbc))
  have htotal : ∀ a b : String × Bytes,
      (decide (a.1 ≤ b.1) || decide (b.1 ≤ a.1)) = true := by
    intro a b
    simpa using String.le_total a.1 b.1
  have hsorted :=
    List.pairwise_mergeSort htrans htotal (descriptionFiles folder)
  exact hsorted.imp of_decide_eq_true

/-- What is taken from a folder keeps its place. -/
theorem descriptionFiles_sublist (folder : Folder) :
    ((descriptionFiles folder).map Prod.fst).Sublist (folder.map Prod.fst) := by
  induction folder with
  | nil => exact .slnil
  | cons e folder ih =>
      obtain ⟨name, entry⟩ := e
      cases entry with
      | folder inner => exact ih.cons name
      | file content =>
          by_cases hname : extension? name = some "json"
          · have htaken : descriptionFiles ((name, .file content) :: folder)
                = (name, content) :: descriptionFiles folder :=
              List.filterMap_cons_some (if_pos hname)
            rw [htaken]
            exact ih.cons_cons name
          · have hpassed : descriptionFiles ((name, .file content) :: folder)
                = descriptionFiles folder :=
              List.filterMap_cons_none (if_neg hname)
            rw [hpassed]
            exact ih.cons name

section Distinct

variable (hnames : (folder.map Prod.fst).Nodup)
include hnames

/-- The files are read in ascending order. -/
theorem sortedFiles_ascending :
    (sortedFiles folder).Pairwise fun a b => nameBytes a.1 < nameBytes b.1 := by
  have hperm : (sortedFiles folder).Perm (descriptionFiles folder) :=
    List.mergeSort_perm _ _
  have hnodup : ((sortedFiles folder).map Prod.fst).Nodup :=
    (hperm.map Prod.fst).nodup_iff.2
      ((descriptionFiles_sublist folder).nodup hnames)
  refine ((sortedFiles_sorted folder).and (List.pairwise_map.1 hnodup)).imp ?_
  intro a b h
  obtain ⟨hle, hne⟩ := h
  exact nameBytes_lt (String.not_le.1 fun hge =>
    hne (String.le_antisymm hle hge))

/-- The same files are read in the same order. -/
theorem sortedFiles_congr
    (h : (descriptionFiles entries).Perm (descriptionFiles folder)) :
    sortedFiles entries = sortedFiles folder := by
  have hperm : (sortedFiles entries).Perm (sortedFiles folder) :=
    (List.mergeSort_perm _ _).trans (h.trans (List.mergeSort_perm _ _).symm)
  refine hperm.eq_of_pairwise ?_ (sortedFiles_sorted entries)
    (sortedFiles_sorted folder)
  intro a b ha hb hab hba
  have hnodup := (descriptionFiles_sublist folder).nodup hnames
  exact List.inj_on_of_nodup_map hnodup (h.mem_iff.1 (List.mem_mergeSort.1 ha))
    (List.mem_mergeSort.1 hb) (String.le_antisymm hab hba)

end Distinct

-- ======================================================= what is in them

/-- The description in a file: what the file holds, named after the file if it
has no name of its own. -/
def Describes (file : String × Bytes) (d : Description) : Prop :=
  ∃ parsed, Description.ofJson file.2 = .ok parsed
    ∧ d = { parsed with
        identifier := if parsed.identifier = "" then file.1
          else parsed.identifier }

/-- A file is read exactly as the description it holds. -/
theorem readDescription_eq_ok :
    readDescription file = .ok d ↔ Describes file d := by
  unfold readDescription Describes
  cases hparse : Description.ofJson file.2 with
  | error fault => simp
  | ok parsed =>
      simp only [Except.ok.injEq, String.isEmpty_iff, exists_eq_left']
      by_cases hempty : parsed.identifier = ""
      · rw [if_pos hempty, if_pos hempty, eq_comm]
      · rw [if_neg hempty, if_neg hempty, eq_comm]

/-- If it fails, the error names the file and says what is wrong. -/
theorem readDescription_eq_error {e : InputError} :
    readDescription file = .error e
    ↔ ∃ fault, Description.ofJson file.2 = .error fault
      ∧ e = .description file.1 fault := by
  unfold readDescription
  cases Description.ofJson file.2 with
  | error fault =>
      simp only [Except.error.injEq, exists_eq_left']
      exact eq_comm
  | ok parsed => simp

/-- No description is without a name. -/
theorem Describes.identifier_ne (h : Describes file d) (hname : file.1 ≠ "") :
    d.identifier ≠ "" := by
  obtain ⟨parsed, -, rfl⟩ := h
  show (if parsed.identifier = "" then file.1 else parsed.identifier) ≠ ""
  split
  · exact hname
  · next hown => exact hown

/-- A file that counts has a name. -/
theorem Considered.name_ne (h : Considered folder file) : file.1 ≠ "" := by
  obtain ⟨-, stem, hstem, hname⟩ := h
  rw [hname]
  simp

-- ============================================================= the reading

theorem readDescriptions_eq (folder : Folder) :
    readDescriptions folder = (sortedFiles folder).mapM readDescription := rfl

/-- All files are read if each is. -/
theorem mapM_readDescription_eq_ok {files : List (String × Bytes)}
    {ds : List Description} :
    files.mapM readDescription = .ok ds ↔ List.Forall₂ Describes files ds := by
  rw [Action.except_mapM_eq_ok]
  exact Action.forall₂_congr_left fun _ _ _ => readDescription_eq_ok

/-- All files can be read if each of them holds a description. -/
theorem exists_describes {files : List (String × Bytes)} :
    (∃ ds, List.Forall₂ Describes files ds)
      ↔ ∀ file ∈ files, ∃ d, Description.ofJson file.2 = .ok d := by
  constructor
  · intro h file hfile
    obtain ⟨ds, hds⟩ := h
    obtain ⟨d, -, parsed, hparsed, -⟩ := Action.exists_of_mem_left hds hfile
    exact ⟨parsed, hparsed⟩
  · intro h
    apply Action.exists_forall₂
    intro file hfile
    obtain ⟨parsed, hparsed⟩ := h file hfile
    exact ⟨_, parsed, hparsed, rfl⟩

/-- Reading fails at the first file that holds none. -/
theorem readDescriptions_eq_error {e : InputError} :
    readDescriptions folder = .error e
    ↔ ∃ earlier file later fault, sortedFiles folder = earlier ++ file :: later
        ∧ (∀ file' ∈ earlier, ∃ d, Description.ofJson file'.2 = .ok d)
        ∧ Description.ofJson file.2 = .error fault
        ∧ e = .description file.1 fault := by
  rw [readDescriptions_eq, Action.except_mapM_eq_error]
  constructor
  · intro h
    obtain ⟨earlier, file, later, ds, hsplit, hearlier, hfile⟩ := h
    obtain ⟨fault, hfault, rfl⟩ := readDescription_eq_error.1 hfile
    have hread := exists_describes.1 ⟨ds, mapM_readDescription_eq_ok.1 hearlier⟩
    exact ⟨earlier, file, later, fault, hsplit, hread, hfault, rfl⟩
  · intro h
    obtain ⟨earlier, file, later, fault, hsplit, hread, hfault, rfl⟩ := h
    obtain ⟨ds, hds⟩ := exists_describes.2 hread
    exact ⟨earlier, file, later, ds, hsplit, mapM_readDescription_eq_ok.2 hds,
      readDescription_eq_error.2 ⟨fault, hfault, rfl⟩⟩

/-- Entries that are not considered leave no trace. -/
theorem descriptionFiles_perm (hmore : ∀ file, ¬Considered more file)
    (h : entries.Perm (folder ++ more)) :
    (descriptionFiles entries).Perm (descriptionFiles folder) := by
  have hnone : descriptionFiles more = [] :=
    List.eq_nil_iff_forall_not_mem.2 fun file hfile =>
      hmore file (mem_descriptionFiles.1 hfile)
  have hboth : descriptionFiles (folder ++ more)
      = descriptionFiles folder ++ descriptionFiles more :=
        List.filterMap_append
  have hperm : (descriptionFiles entries).Perm
      (descriptionFiles (folder ++ more)) :=
    h.filterMap _
  rwa [hboth, hnone, List.append_nil] at hperm

/-- Reading a folder is settled by the files in it whose names have the
extension `json`, and so by no order in which they were created or are listed,
and by nothing else that is there. They are read in the order of the bytes of
their names. If all of them hold descriptions, these are the result, one for
each file, and where one has no name it has the file's, so that none goes
without; otherwise the error names the first file that holds none. -/
theorem readDescriptions_canonical (hnames : (folder.map Prod.fst).Nodup) :
    ∃ files : List (String × Bytes),
      (∀ file, file ∈ files ↔ Considered folder file)
      ∧ files.Pairwise (fun a b => nameBytes a.1 < nameBytes b.1)
      ∧ ((∃ ds, readDescriptions folder = .ok ds)
          ↔ ∀ file ∈ files, ∃ d, Description.ofJson file.2 = .ok d)
      ∧ (∀ ds, readDescriptions folder = .ok ds
        ↔ List.Forall₂ Describes files ds)
      ∧ (∀ ds, readDescriptions folder = .ok ds → ∀ d ∈ ds, d.identifier ≠ "")
      ∧ (∀ e, readDescriptions folder = .error e ↔ ∃ earlier file later fault,
          files = earlier ++ file :: later
            ∧ (∀ file' ∈ earlier, ∃ d, Description.ofJson file'.2 = .ok d)
            ∧ Description.ofJson file.2 = .error fault
            ∧ e = .description file.1 fault)
      ∧ ∀ more entries, (∀ file, ¬Considered more file) →
        entries.Perm (folder ++ more) →
          readDescriptions entries = readDescriptions folder
            ∧ ((entries.map Prod.fst).Nodup →
                readDescriptions (Folder.filled entries)
                  = readDescriptions folder) := by
  refine ⟨sortedFiles folder, fun file => mem_sortedFiles,
    sortedFiles_ascending hnames, ?_, fun ds =>
      mapM_readDescription_eq_ok, ?_, fun e => readDescriptions_eq_error, ?_⟩
  · simp only [readDescriptions_eq, mapM_readDescription_eq_ok]
    exact exists_describes
  · intro ds hds d hd
    obtain ⟨file, hfile, hdescribes⟩ :=
      Action.exists_of_mem_right (mapM_readDescription_eq_ok.1 hds) hd
    exact hdescribes.identifier_ne (mem_sortedFiles.1 hfile).name_ne
  · intro more entries hmore hentries
    have hsame : readDescriptions entries = readDescriptions folder := by
      rw [readDescriptions_eq,
        sortedFiles_congr hnames (descriptionFiles_perm hmore hentries)]
      rfl
    refine ⟨hsame, fun hdistinct => ?_⟩
    rw [Folder.filled_eq hdistinct]
    exact hsame

/-- A folder with two descriptions, of which one has no name. -/
def sampleFolder : Folder :=
  [("graph_3.json", .file (Description.json ⟨"", [], []⟩)),
    ("graph_12.json", .file (Description.json ⟨"graph_12", [], []⟩))]

/-- Entries that are not considered. -/
def sampleOthers : Folder :=
  [("x.JSON", .file []), (".json", .file []), ("graph_4.json", .folder [])]

/-- The description without a name gets one, and the same is read from a folder
that was filled in another order and has other things in it. -/
theorem readDescriptions_canonical_sample :
    ∃ ds, readDescriptions sampleFolder = .ok ds
      ∧ (∃ d ∈ ds, d.identifier = "graph_3.json")
        ∧ (∀ d ∈ ds, d.identifier ≠ "")
      ∧ readDescriptions (Folder.filled (sampleOthers ++ sampleFolder))
        = .ok ds := by
  have hnames : (sampleFolder.map Prod.fst).Nodup := by decide
  obtain ⟨files, hfiles, -, hreads, hread, hnamed, -, hsame⟩ :=
    readDescriptions_canonical hnames
  have hjson : ∀ d : Description, Description.ofJson d.json = .ok d :=
    fun d => Json.document_eq_ok d.reads_json
  have hall : ∀ file ∈ files, ∃ d, Description.ofJson file.2 = .ok d := by
    intro file hfile
    have hin := mem_descriptionFiles.2 ((hfiles file).1 hfile)
    have htwo : descriptionFiles sampleFolder
        = [("graph_3.json", Description.json ⟨"", [], []⟩),
          ("graph_12.json", Description.json ⟨"graph_12", [], []⟩)] := rfl
    rw [htwo] at hin
    rcases List.mem_cons.1 hin with rfl | hin
    · exact ⟨_, hjson _⟩
    · rw [List.mem_singleton.1 hin]
      exact ⟨_, hjson _⟩
  obtain ⟨ds, hds⟩ := hreads.2 hall
  have hthird : ("graph_3.json", Description.json ⟨"", [], []⟩) ∈ files :=
    (hfiles _).2 ⟨List.mem_cons_self, "graph_3", by decide, rfl⟩
  obtain ⟨d, hd, parsed, hparsed, rfl⟩ :=
    Action.exists_of_mem_left ((hread ds).1 hds) hthird
  obtain rfl := Except.ok.inj ((hjson _).symm.trans hparsed)
  have hothers : ∀ file, ¬Considered sampleOthers file :=
    fun file h => List.not_mem_nil (mem_descriptionFiles.2 h)
  obtain ⟨-, hfilled⟩ := hsame sampleOthers _ hothers List.perm_append_comm
  exact ⟨ds, hds, ⟨_, hd, rfl⟩, hnamed ds hds, (hfilled (by decide)).trans hds⟩

end Setup

end FlowPricing
