import OpsScripts.Zabbix.Document
import Mathlib.Data.List.Perm.Subperm

/-!
# `bareos_get_jobs.sh` and `expirycerts.sh`, mode `Discover`

The names of the jobs are cut out of the lines of the console; the names of the certificates go
through an expansion without quotation marks, `echo` and `sort`. Both come into the same document,
where nothing is escaped and an empty list has an element as well. The lines of `expirycerts.sh`
are taken to end in a line feed alone; as it is stored, with a carriage return in front of it, the
shell does not get past its syntax.
-/

namespace OpsScripts.Zabbix

open Shell Json

/-- The document is that of the names, in some order. -/
def Exact (printed : Text) (names : List Text) : Prop :=
  ∃ found, found.Perm names ∧ loads printed = some (document found)

/-! ## Jobs -/

/-- `grep -i "^  name ="`. -/
def grepName (line : Text) : Bool := "  name =".toList.isPrefixOf (line.map Char.toLower)

/-- The line of a job with its name. -/
def nameLine (name : Text) : Text := "  Name = \"".toList ++ (name ++ ['"'])

/-- The answer of the console to `show jobs`: among its lines those with a name are the lines of
the jobs. -/
structure Console where
  names : List Text
  answer : List Text
  lines : ∀ l ∈ answer, '\n' ∉ l
  shown : answer.filter grepName = names.map nameLine

/-- `cut -d '"' -f 2`; a line without the delimiter is left. -/
def cut (line : Text) : Text :=
  if '"' ∈ line then ((line.splitOn '"')[1]?).getD [] else line

/-- The lines behind `cut`. -/
def Console.cutLines (c : Console) : List Text := (c.answer.filter grepName).map cut

/-- What `bareos_get_jobs.sh Discover` prints. -/
def Console.Discover (c : Console) : Text := Zabbix.Discover c.cutLines

/-- There is a name, no name has anything to be escaped, and the names before the last one have no
blanks at their ends. -/
def JobsWritable (names : List Text) : Prop :=
  names ≠ [] ∧ (∀ n ∈ names, Plain n) ∧ ∀ n ∈ names.dropLast, Kept n

/-- The name in its line. -/
theorem cut_nameLine (name : Text) :
    cut (nameLine name) = ((name ++ ['"']).splitOn '"').headD [] := by
  have hfront : '"' ∉ "  Name = ".toList := by decide
  have hline : nameLine name = "  Name = ".toList ++ '"' :: (name ++ ['"']) := rfl
  have hmem : '"' ∈ nameLine name := by
    rw [hline]
    exact List.mem_append_right _ List.mem_cons_self
  obtain ⟨t, ts, hts⟩ := List.exists_cons_of_ne_nil (List.splitOn_ne_nil '"' (name ++ ['"']))
  rw [cut, if_pos hmem, hline, List.splitOn_append_cons_self_of_not_mem hfront, hts]
  rfl

theorem cut_of_notMem {name : Text} (h : '"' ∉ name) : cut (nameLine name) = name := by
  rw [cut_nameLine, headD_splitOn h]

/-- A name goes up to its first quotation mark. -/
theorem cut_split (name : Text) : '"' ∉ cut (nameLine name) ∧
    (cut (nameLine name) = name ∨ (cut (nameLine name)).length < name.length) := by
  rcases notMem_or_split '"' name with hnot | ⟨s, u, rfl, hs⟩
  · rw [cut_of_notMem hnot]
    exact ⟨hnot, Or.inl rfl⟩
  · have hsplit : s ++ '"' :: u ++ ['"'] = s ++ '"' :: (u ++ ['"']) := by
      rw [List.append_assoc, List.cons_append]
    rw [cut_nameLine, hsplit, headD_splitOn hs, List.length_append, List.length_cons]
    exact ⟨hs, Or.inr (by omega)⟩

theorem cutLines_eq (c : Console) : c.cutLines = c.names.map fun n => cut (nameLine n) := by
  rw [Console.cutLines, c.shown, List.map_map]
  rfl

/-- Only names without quotation marks keep all their characters. -/
theorem cut_of_length {names : List Text}
    (h : names.flatten.length ≤ (names.map fun n => cut (nameLine n)).flatten.length) :
    (names.map fun n => cut (nameLine n)) = names := by
  have hle : ∀ names : List Text,
      (names.map fun n => cut (nameLine n)).flatten.length ≤ names.flatten.length := by
    intro names
    induction names with
    | nil => exact le_rfl
    | cons n names ih =>
      rw [List.map_cons, List.flatten_cons, List.flatten_cons, List.length_append,
        List.length_append]
      rcases (cut_split n).2 with heq | hlt
      · rw [heq]
        omega
      · omega
  induction names with
  | nil => rfl
  | cons n names ih =>
    have hrest := hle names
    rw [List.map_cons, List.flatten_cons, List.flatten_cons, List.length_append,
      List.length_append] at h
    rcases (cut_split n).2 with heq | hlt
    · rw [heq] at h
      rw [List.map_cons, heq, ih (by omega)]
    · omega

/-- The document without names has an element with an empty name. -/
theorem not_exact_nil {printed : Text} {t : Text} (h : loads printed = some (document [t])) :
    ¬Exact printed [] := by
  rintro ⟨found, hperm, hfound⟩
  obtain rfl := hperm.eq_nil
  rw [h, Option.some.injEq] at hfound
  have hnames := congrArg discovered hfound
  rw [discovered_document, discovered_document] at hnames
  cases hnames

/-- The jobs are discovered exactly if their names can be written. -/
theorem jobs_exact_iff (c : Console) : Exact c.Discover c.names ↔ JobsWritable c.names := by
  rw [Console.Discover, cutLines_eq]
  constructor
  · intro h
    by_cases hne : c.names = []
    · rw [hne, List.map_nil] at h
      exact absurd h (not_exact_nil loads_Discover_nil)
    · obtain ⟨found, hperm, hfound⟩ := h
      have hquote : ∀ t ∈ entries (c.names.map fun n => cut (nameLine n)), '"' ∉ t := by
        intro t ht hmem
        have hflat := (entries_sublist _).subset (List.mem_flatten.mpr ⟨t, ht, hmem⟩)
        obtain ⟨l, hl, hmem⟩ := List.mem_flatten.mp hflat
        obtain ⟨n, -, rfl⟩ := List.mem_map.mp hl
        exact (cut_split n).1 hmem
      have hlength : found.flatten.length = c.names.flatten.length := hperm.flatten.length_eq
      have hle := length_discovered_le hquote hfound
      rw [discovered_document, hlength] at hle
      have hcut := cut_of_length hle
      rw [hcut] at hquote hfound
      refine ⟨hne, plain_of_length hne hquote hfound ?_⟩
      rw [discovered_document, hlength]
  · rintro ⟨hne, hplain, hkept⟩
    have hcut : (c.names.map fun n => cut (nameLine n)) = c.names := by
      refine (List.map_congr_left fun n hn => cut_of_notMem fun hmem => ?_).trans (List.map_id _)
      exact absurd (hplain n hn _ hmem).1 (by decide)
    rw [hcut]
    exact ⟨c.names, List.Perm.refl _, loads_Discover hne hplain hkept⟩

/-! ## Certificates -/

/-- What the script takes from its host: the expansion of patterns in the working directory, the
escapes of `echo -e` and the order of `sort`. -/
structure Host where
  expand : Text → List Text
  escapes : Text → Text
  sort : List Text → List Text
  /-- A word without letters of patterns stays. -/
  expand_plain : ∀ w, (∀ c ∈ w, c ∉ ['*', '?', '[', '\\']) → expand w = [w]
  /-- A pattern without files stays. -/
  expand_ne_nil : ∀ w, expand w ≠ []
  expand_crt : ∀ w ∈ expand "*.crt".toList, ".crt".toList <:+ w
  /-- An escape sequence is longer than the character it stands for. -/
  escapes_chars : ∀ t, (escapes t).countP (fun c => c != ' ' && c != '\n') ≤
    t.countP fun c => c != ' ' && c != '\n'
  /-- It begins with a backslash, which is spent. -/
  escapes_marks : ∀ t, (escapes t).countP isMark ≤ t.countP isMark
  sort_perm : ∀ ls, (sort ls).Perm ls

/-- The base name of a file that `find -name *.crt` finds. -/
structure CertName where
  text : Text
  crt : ".crt".toList <:+ text
  file : '/' ∉ text

section Certificates

variable (h : Host)

/-- The words that a command gets for an expansion without quotation marks. -/
def Host.arguments (t : Text) : List Text := (words t).flatMap h.expand

/-- `$(find $dir -name *.crt -exec basename {} \;)`. -/
def CERTS (names : List Text) : Text := capture names

/-- The lines behind `echo $CERTS | tr ' ' '\n ' | sort`. -/
def Host.certLines (names : List Text) : List Text :=
  h.sort (linesOf (trBlanks (echo h.escapes (h.arguments (CERTS names)))))

/-- What `expirycerts.sh $dir Discover` prints. -/
def Host.Discover (names : List Text) : Text := Zabbix.Discover (h.certLines names)

/-- There is a name, and every name is a single word that stands for itself and needs no
escapes. -/
def Host.CertsWritable (names : List Text) : Prop :=
  names ≠ [] ∧ ∀ n ∈ names, h.arguments n = [n] ∧ (∀ c ∈ n, isBlank c = false) ∧ Plain n

/-- No word of a name stands for other files. -/
def Host.Stays (names : List Text) : Prop := ∀ n ∈ names, ∀ w ∈ words n, h.expand w = [w]

/-- The words of captured lines, as arguments, are those of each line. -/
theorem arguments_capture (ls : List Text) : h.arguments (capture ls) = ls.flatMap h.arguments := by
  rw [Host.arguments, words_capture, List.flatMap_assoc]
  rfl

/-- A name of a file `*.crt` is no option. -/
theorem isOption_of_crt {n : Text} (hn : ".crt".toList <:+ n) : isOption n = false := by
  have hoption : ∀ w, isOption w = true → ∀ c ∈ w, c ∈ ['-', 'n', 'e', 'E'] := by
    intro w hw c hc
    unfold isOption at hw
    split at hw
    · rcases List.mem_cons.mp hc with rfl | hc
      · exact List.mem_cons_self
      · have hx := List.all_eq_true.mp hw c hc
        exact List.mem_cons_of_mem _ (by simpa [or_assoc] using hx)
    · cases hw
  rw [← Bool.not_eq_true]
  intro hw
  have hdot : '.' ∈ n := hn.subset (by decide)
  exact absurd (hoption n hw '.' hdot) (by decide)

/-- Names that are single words become the lines. -/
theorem certLines_eq {names : List Text} (hne : names ≠ [])
    (hcrt : ∀ n ∈ names, ".crt".toList <:+ n) (hargs : ∀ n ∈ names, h.arguments n = [n])
    (hblank : ∀ n ∈ names, ∀ c ∈ n, isBlank c = false) :
    h.certLines names = h.sort names := by
  have harguments : h.arguments (CERTS names) = names := by
    rw [CERTS, arguments_capture, List.flatMap_congr hargs]
    exact List.flatMap_singleton' names
  have hoption : ∀ w ∈ names.head?, isOption w = false :=
    fun w hw => isOption_of_crt (hcrt w (List.mem_of_head? hw))
  rw [Host.certLines, harguments, echo_of_plain _ hoption, linesOf_trBlanks_join hne hblank]

/-- Names that can be written are discovered. -/
theorem certs_exact {names : List Text} (hcrt : ∀ n ∈ names, ".crt".toList <:+ n)
    (hw : h.CertsWritable names) : Exact (h.Discover names) names := by
  obtain ⟨hne, hnames⟩ := hw
  have hlines := certLines_eq h hne hcrt (fun n hn => (hnames n hn).1) fun n hn => (hnames n hn).2.1
  have hperm := h.sort_perm names
  have hmem : ∀ l ∈ h.sort names, (∀ c ∈ l, isBlank c = false) ∧ Plain l :=
    fun l hl => (hnames l (hperm.mem_iff.mp hl)).2
  have hsort : h.sort names ≠ [] := fun hnil => hne (hnil ▸ hperm).symm.eq_nil
  refine ⟨h.sort names, hperm, ?_⟩
  rw [Host.Discover, hlines]
  refine loads_Discover hsort (fun l hl => (hmem l hl).2) fun l hl => ?_
  obtain ⟨hblank, hplain⟩ := hmem l (List.mem_of_mem_dropLast hl)
  exact ⟨fun hback => absurd (hplain _ hback).1 (by decide),
    fun c hc => hblank c (List.mem_of_head? hc), fun c hc => hblank c (List.mem_of_getLast? hc)⟩

/-- The characters of the lines are those that `echo` writes, but blanks and line breaks. -/
theorem countP_certLines {p : Char → Bool} (hblank : p ' ' = false) (hbreak : p '\n' = false)
    (names : List Text) : (h.certLines names).flatten.countP p =
      (echo h.escapes (h.arguments (CERTS names))).countP p := by
  rw [Host.certLines, (h.sort_perm _).flatten.countP_eq, flatten_linesOf, List.countP_filter,
    trBlanks, List.countP_map]
  refine List.countP_congr fun c _ => ?_
  by_cases hc : c = ' '
  · subst hc
    simp [hblank]
  · by_cases hc' : c = '\n'
    · subst hc'
      simp [hbreak]
    · simp [hc, hc']

/-- Nor does a line have a blank. -/
theorem length_certLines (names : List Text) : (h.certLines names).flatten.length =
    (h.certLines names).flatten.countP fun c => c != ' ' && c != '\n' := by
  refine (List.countP_eq_length.mpr fun c hc => ?_).symm
  rw [Host.certLines, (h.sort_perm _).flatten.mem_iff, flatten_linesOf, List.mem_filter, trBlanks,
    List.mem_map] at hc
  obtain ⟨⟨c', -, rfl⟩, hbreak⟩ := hc
  rw [Bool.and_eq_true]
  refine ⟨?_, hbreak⟩
  split_ifs with hc'
  · rfl
  · simpa using hc'

/-- If no word stands for other files, the arguments are the names without their blanks. -/
theorem flatten_arguments {names : List Text} (hstays : h.Stays names) :
    (h.arguments (CERTS names)).flatten = names.flatten.filter fun c => !isBlank c := by
  rw [CERTS, arguments_capture]
  induction names with
  | nil => rfl
  | cons n names ih =>
    obtain ⟨hn, hnames⟩ := List.forall_mem_cons.mp hstays
    have hwords : h.arguments n = words n := by
      rw [Host.arguments, List.flatMap_congr hn]
      exact List.flatMap_singleton' _
    rw [List.flatMap_cons, List.flatten_append, hwords, flatten_words, ih hnames, List.flatten_cons,
      List.filter_append]

/-- The quotation marks of the names would need backslashes that the document does not have. -/
theorem notMem_entries {names : List Text} {v : Json} (hstays : h.Stays names)
    (hv : loads (h.Discover names) = some v) (hsub : names.Subperm (discovered v)) :
    ∀ t ∈ entries (h.certLines names), '"' ∉ t := by
  have hnames : names.flatten.countP isMark ≤ marks (discovered v) := by
    obtain ⟨ns, hperm, hns⟩ := hsub
    rw [← hperm.flatten.countP_eq]
    exact hns.flatten.countP_le
  have htext : marks (discovered v) ≤ (entries (h.certLines names)).flatten.count '\\' := by
    rw [← count_Discover]
    exact (marks_discovered_le v).trans (loads_marks hv)
  have hentries : (entries (h.certLines names)).flatten.countP isMark ≤
      names.flatten.countP isMark := by
    have hecho := countP_echo_le (p := isMark) (by rfl) (by rfl) h.escapes_marks
      (h.arguments (CERTS names))
    rw [← countP_certLines h (by rfl) (by rfl), flatten_arguments h hstays] at hecho
    have hlines := (entries_sublist (h.certLines names)).countP_le (p := isMark)
    have hwords := (List.filter_sublist (p := fun c => !isBlank c)
      (l := names.flatten)).countP_le (p := isMark)
    omega
  rw [countP_isMark] at hentries
  have hnone : (entries (h.certLines names)).flatten.count '"' = 0 := by omega
  exact fun t ht hmem => List.count_eq_zero.mp hnone (List.mem_flatten.mpr ⟨t, ht, hmem⟩)

/-- If all names are discovered, nothing was lost on the way. -/
theorem writable_of_subperm {names : List Text} {v : Json}
    (hcrt : ∀ n ∈ names, ".crt".toList <:+ n) (hne : names ≠ []) (hstays : h.Stays names)
    (hv : loads (h.Discover names) = some v) (hsub : names.Subperm (discovered v)) :
    h.CertsWritable names := by
  have hquote := notMem_entries h hstays hv hsub
  have hnames : names.flatten.length ≤ (discovered v).flatten.length := by
    obtain ⟨ns, hperm, hns⟩ := hsub
    rw [← hperm.flatten.length_eq]
    exact hns.flatten.length_le
  have hfound := length_discovered_le hquote hv
  have hecho := countP_echo_le (p := fun c => c != ' ' && c != '\n') (by rfl) (by rfl)
    h.escapes_chars (h.arguments (CERTS names))
  rw [← countP_certLines h (by rfl) (by rfl), ← length_certLines,
    flatten_arguments h hstays] at hecho
  have hcount := List.countP_le_length (p := fun c => c != ' ' && c != '\n')
    (l := names.flatten.filter fun c => !isBlank c)
  have hfilter := List.length_filter_le (fun c => !isBlank c) names.flatten
  -- the lengths on the way from the names to the discovered names are all the same
  have hblank : ∀ n ∈ names, ∀ c ∈ n, isBlank c = false := by
    have hall : ∀ c ∈ names.flatten, (!isBlank c) = true :=
      List.length_filter_eq_length_iff.mp (by omega)
    intro n hn c hc
    exact Bool.not_eq_true' _ |>.mp (hall c (List.mem_flatten.mpr ⟨n, hn, hc⟩))
  have hargs : ∀ n ∈ names, h.arguments n = [n] := by
    intro n hn
    have hnonempty : n ≠ [] := by
      rintro rfl
      exact absurd (hcrt [] hn).length_le (by decide)
    have hword : words n = [n] := words_of_plain hnonempty (hblank n hn)
    have hstay : h.expand n = [n] := hstays n hn n (by rw [hword]; exact List.mem_singleton_self n)
    rw [Host.arguments, hword, List.flatMap_singleton, hstay]
  have hlines := certLines_eq h hne hcrt hargs hblank
  have hperm := h.sort_perm names
  have hsort : h.sort names ≠ [] := fun hnil => hne (hnil ▸ hperm).symm.eq_nil
  rw [Host.Discover, hlines] at hv
  rw [hlines] at hquote
  have hlength : (h.sort names).flatten.length ≤ (discovered v).flatten.length := by
    rwa [hperm.flatten.length_eq]
  have hplain := (plain_of_length hsort hquote hv hlength).1
  exact ⟨hne, fun n hn => ⟨hargs n hn, hblank n hn, hplain n (hperm.mem_iff.mpr hn)⟩⟩

/-- Without names the document has an element with an empty name. -/
theorem loads_Discover_noCerts : loads (h.Discover []) = some (document [[]]) := by
  have hlines : linesOf (trBlanks (echo h.escapes (h.arguments (CERTS [])))) = [[]] := by
    have hargs : h.arguments (CERTS []) = [] := rfl
    rw [hargs]
    rfl
  have hsort : h.sort [[]] = [[]] := List.perm_singleton.mp (h.sort_perm [[]])
  have hplain : ∀ t ∈ [([] : Text)], Plain t :=
    List.forall_mem_singleton.mpr fun c hc => nomatch hc
  rw [Host.Discover, Host.certLines, hlines, hsort]
  exact loads_Discover (List.cons_ne_nil _ _) hplain fun l hl => nomatch hl

/-- A text of letters without a meaning for the shell or in JSON. -/
def Letters (t : Text) : Prop :=
  ∀ c ∈ t, c ∉ [' ', '*', '?', '[', '\\', '"'] ∧ 32 ≤ c.toNat

theorem notMem_pattern_of_letters {t : Text} (ht : Letters t) :
    ∀ c ∈ t, c ∉ ['*', '?', '[', '\\'] := by
  have hsub : ['*', '?', '[', '\\'] ⊆ [' ', '*', '?', '[', '\\', '"'] := by decide
  exact fun c hc hpattern => (ht c hc).1 (hsub hpattern)

theorem notBlank_of_letters {t : Text} (ht : Letters t) : ∀ c ∈ t, isBlank c = false := by
  intro c hc
  obtain ⟨hmeaning, hcontrol⟩ := ht c hc
  have hspace : c ≠ ' ' := fun h => hmeaning (h ▸ List.mem_cons_self)
  have htab : c ≠ '\t' := by
    rintro rfl
    exact absurd hcontrol (by decide)
  have hbreak : c ≠ '\n' := by
    rintro rfl
    exact absurd hcontrol (by decide)
  simp [isBlank, hspace, htab, hbreak]

theorem plain_of_letters {t : Text} (ht : Letters t) : Plain t := by
  intro c hc
  obtain ⟨hmeaning, hcontrol⟩ := ht c hc
  simp only [List.mem_cons, List.not_mem_nil, or_false, not_or] at hmeaning
  exact ⟨by simp [isMark, hmeaning], hcontrol⟩

/-- Such a text is a word that stands for itself. -/
theorem arguments_of_letters {t : Text} (hne : t ≠ []) (ht : Letters t) : h.arguments t = [t] := by
  rw [Host.arguments, words_of_plain hne (notBlank_of_letters ht), List.flatMap_singleton,
    h.expand_plain t (notMem_pattern_of_letters ht)]

/-- Names of such letters can be written. -/
theorem writable_of_letters {names : List Text} (hne : names ≠ [])
    (hcrt : ∀ n ∈ names, ".crt".toList <:+ n) (hletters : ∀ n ∈ names, Letters n) :
    h.CertsWritable names := by
  refine ⟨hne, fun n hn => ?_⟩
  have hnonempty : n ≠ [] := by
    rintro rfl
    exact absurd (hcrt [] hn).length_le (by decide)
  have hn := hletters n hn
  exact ⟨arguments_of_letters h hnonempty hn, notBlank_of_letters hn, plain_of_letters hn⟩

/-- The certificates are discovered exactly if their names can be written. -/
theorem certs_exact_iff {names : List Text} (hcrt : ∀ n ∈ names, ".crt".toList <:+ n)
    (hstays : h.Stays names) : Exact (h.Discover names) names ↔ h.CertsWritable names := by
  constructor
  · intro hexact
    by_cases hne : names = []
    · rw [hne] at hexact
      exact absurd hexact (not_exact_nil (loads_Discover_noCerts h))
    · obtain ⟨found, hperm, hfound⟩ := hexact
      refine writable_of_subperm h hcrt hne hstays hfound ?_
      rw [discovered_document]
      exact hperm.symm.subperm
  · exact certs_exact h hcrt

end Certificates

/-- The names of some certificate files. -/
def certNames (certs : List CertName) : List Text := certs.map CertName.text

theorem crt_of_mem_certNames {certs : List CertName} {n : Text} (hn : n ∈ certNames certs) :
    ".crt".toList <:+ n := by
  obtain ⟨c, -, rfl⟩ := List.mem_map.mp hn
  exact c.crt

/-- The jobs are discovered exactly if their names can be written; the certificates are if theirs
can, and only then where no word of a name stands for other files. -/
theorem discovery_exact (c : Console) (h : Host) (certs : List CertName) :
    (Exact c.Discover c.names ↔ JobsWritable c.names) ∧
      (h.CertsWritable (certNames certs) →
        Exact (h.Discover (certNames certs)) (certNames certs)) ∧
      (h.Stays (certNames certs) →
        (Exact (h.Discover (certNames certs)) (certNames certs) ↔
          h.CertsWritable (certNames certs))) :=
  ⟨jobs_exact_iff c, certs_exact h fun _ => crt_of_mem_certNames,
    certs_exact_iff h fun _ => crt_of_mem_certNames⟩

/-- A host without files in the working directory and without options of `echo`. -/
def bareHost : Host where
  expand := fun w => [w]
  escapes := fun t => t
  sort := fun ls => ls.insertionSort (· ≤ ·)
  expand_plain := fun _ _ => rfl
  expand_ne_nil := fun w => List.cons_ne_nil w []
  expand_crt := fun _ hw => (List.mem_singleton.mp hw) ▸ List.suffix_cons _ _
  escapes_chars := fun _ => le_rfl
  escapes_marks := fun _ => le_rfl
  sort_perm := fun ls => ls.perm_insertionSort _

/-- A console without jobs. -/
def noJobs : Console where
  names := []
  answer := []
  lines := fun _ hl => nomatch hl
  shown := rfl

/-- Without names both documents have an element. -/
theorem nothing_not_exact : ¬Exact noJobs.Discover noJobs.names ∧
    ∀ h : Host, ¬Exact (h.Discover (certNames [])) (certNames []) :=
  ⟨not_exact_nil loads_Discover_nil, fun h => not_exact_nil (loads_Discover_noCerts h)⟩

end OpsScripts.Zabbix
