import OpsScripts.Zabbix.Discovery

/-!
# `expirycerts.sh`

The discovery goes from the paths of the certificates to their base names; a query goes back with
the base name as a pattern, and whatever is found is split into words once more. What is printed
is a quotient that is rounded towards zero, also for a query that reads nothing. The lines of the
script are taken to end in a line feed alone.
-/

namespace OpsScripts.Zabbix

open Shell Json

/-! ## The script -/

/-- The name behind the last slash of a path, `basename`. -/
def baseName (path : Text) : Text := lastPiece '/' (path.rdropWhile (· == '/'))

/-- The files of a host and what `find` and `openssl` say about them. -/
structure Files where
  /-- The paths that `find` goes through from a start on. -/
  walk : Text → List Text
  /-- The end of the validity of a certificate, in seconds. -/
  notAfter : Text → Option Int
  /-- Whether `-name` takes a base name for a pattern. -/
  fnmatch : Text → Text → Bool
  /-- What `find` prints if there is not a single word behind `-name`. -/
  expression : List Text → List Text → List Text
  walk_nodup : ∀ start, (walk start).Nodup
  walk_begins : ∀ start, ∀ path ∈ walk start, start <+: path
  /-- A certificate is a file. -/
  name_ne_nil : ∀ path, (notAfter path).isSome → baseName path ≠ []
  fnmatch_plain : ∀ pattern, (∀ c ∈ pattern, c ∉ ['*', '?', '[', '\\']) →
    ∀ name, fnmatch pattern name = decide (pattern = name)
  fnmatch_crt : ∀ pattern, ".crt".toList <:+ pattern → ∀ name, fnmatch pattern name = true →
    ".crt".toList <:+ name
  fnmatch_star : ∀ name, ".crt".toList <:+ name → fnmatch "*.crt".toList name = true

section Script

variable (h : Host) (fs : Files)

/-- The paths that `find $dir` goes through; without a start it is the working directory. -/
def Files.walked (dir : Text) : List Text :=
  match h.arguments dir with
  | [] => fs.walk ".".toList
  | starts => starts.flatMap fs.walk

/-- `find $dir -name` with a word as the pattern. -/
def Files.find (dir pattern : Text) : List Text :=
  (fs.walked h dir).filter fun path => fs.fnmatch pattern (baseName path)

/-- The base names of `find $dir -name *.crt`; a second word behind `-name` is an error. -/
def Files.names (dir : Text) : List Text :=
  match h.arguments "*.crt".toList with
  | [pattern] => (fs.find h dir pattern).map baseName
  | _ => []

/-- `find $dir -name $PARAM1`. -/
def Files.CERTDIR (dir PARAM1 : Text) : List Text :=
  match h.arguments PARAM1 with
  | [pattern] => fs.find h dir pattern
  | ws => fs.expression (h.arguments dir) ws

/-- The certificate that `openssl x509 -in $CERTDIR` reads; any other number of words is an
error. -/
def Files.reads (dir PARAM1 : Text) : Option (Text × Int) :=
  match h.arguments (capture (fs.CERTDIR h dir PARAM1)) with
  | [path] => (fs.notAfter path).map fun date => (path, date)
  | _ => none

/-- What the script prints: the document, or the days with the path that was read for them. -/
inductive Output where
  | document (t : Text)
  | days (path : Option Text) (n : Int)
  deriving DecidableEq

/-- `expirycerts.sh $dir $PARAM1`; without a date, `date -d ""` is the beginning of the day. -/
def Files.run (today now : Int) (dir PARAM1 : Text) : Output :=
  if PARAM1 = "Discover".toList then .document (h.Discover (fs.names h dir))
  else match fs.reads h dir PARAM1 with
    | some (path, date) => .days (some path) (Int.tdiv (date - now) 86400)
    | none => .days none (Int.tdiv (today - now) 86400)

/-- The names that the discovery finds in the document. -/
def Files.emitted (dir : Text) : List Text :=
  match loads (h.Discover (fs.names h dir)) with
  | some v => discovered v
  | none => []

end Script

/-! ## Agreement -/

section Agreement

variable (h : Host) (fs : Files)

/-- The paths with the suffix of certificates. -/
def Files.crt (dir : Text) : List Text :=
  (fs.walk dir).filter fun path => ".crt".toList.isSuffixOf (baseName path)

/-- The query of a name reads a certificate with this name and prints its days, rounded down. -/
def Files.Answers (today now : Int) (dir n path : Text) : Prop :=
  path ∈ fs.walk dir ∧ baseName path = n ∧ ∃ date, fs.notAfter path = some date ∧
    fs.run h today now dir n = .days (some path) (Int.fdiv (date - now) 86400)

/-- Discovery and queries agree: the query of every name that is emitted reads a certificate of
the tree, every certificate of the tree is read by one, and the days of an expired one are
negative. -/
structure Files.Agree (today now : Int) (dir : Text) : Prop where
  answered : ∀ n ∈ fs.emitted h dir, ∃ path, fs.Answers h today now dir n path
  covered : ∀ path ∈ fs.crt dir, (fs.notAfter path).isSome →
    ∃ n ∈ fs.emitted h dir, fs.Answers h today now dir n path
  expired : ∀ n ∈ fs.emitted h dir, ∀ path date k, fs.notAfter path = some date → date < now →
    fs.run h today now dir n = .days (some path) k → k < 0

/-- A path is the only one that its base name finds as a pattern, and it is a single word. -/
def Files.Unique (dir path : Text) : Prop :=
  ∃ found, fs.find h dir (baseName path) = [found] ∧ h.arguments found = [path]

/-- The paths with the suffix are those of certificates. -/
def Files.OnlyCertificates (dir : Text) : Prop := ∀ path ∈ fs.crt dir, (fs.notAfter path).isSome

/-- The pattern of the discovery finds every certificate, the base names can be written, each of
them leads back to its path, and no certificate has expired in the middle of a day of its own. -/
structure Files.Queryable (now : Int) (dir : Text) : Prop where
  dir_word : h.arguments dir = [dir]
  certificates : fs.OnlyCertificates dir
  pattern : ∃ p, h.arguments "*.crt".toList = [p] ∧
    ∀ path ∈ fs.crt dir, fs.fnmatch p (baseName path) = true
  writable : h.CertsWritable ((fs.crt dir).map baseName)
  unique : ∀ path ∈ fs.crt dir, fs.Unique h dir path
  clock : ∀ path ∈ fs.crt dir, ∀ date, fs.notAfter path = some date →
    now ≤ date ∨ 86400 ∣ date - now

end Agreement

/-! ## One query -/

section Query

variable {h : Host} {fs : Files} {dir : Text}

theorem find_eq (hdir : h.arguments dir = [dir]) (pattern : Text) : fs.find h dir pattern =
    (fs.walk dir).filter fun path => fs.fnmatch pattern (baseName path) := by
  have hwalked : fs.walked h dir = fs.walk dir := by
    rw [Files.walked, hdir]
    exact List.flatMap_singleton fs.walk dir
  rw [Files.find, hwalked]

theorem mem_crt {path : Text} :
    path ∈ fs.crt dir ↔ path ∈ fs.walk dir ∧ ".crt".toList <:+ baseName path := by
  rw [Files.crt, List.mem_filter, List.isSuffixOf_iff_suffix]

/-- A list of paths with their words has one word only if it is one path. -/
theorem flatMap_eq_singleton {f : Text → List Text} {paths : List Text} {w : Text}
    (hne : ∀ path ∈ paths, f path ≠ []) (hw : paths.flatMap f = [w]) :
    ∃ path, paths = [path] ∧ f path = [w] := by
  cases paths with
  | nil => cases hw
  | cons path paths =>
    rw [List.flatMap_cons] at hw
    rcases List.append_eq_singleton_iff.mp hw with ⟨hnil, -⟩ | ⟨hone, hnone⟩
    · exact absurd hnil (hne path List.mem_cons_self)
    · cases paths with
      | nil => exact ⟨path, rfl, hone⟩
      | cons path' paths =>
        rw [List.flatMap_cons, List.append_eq_nil_iff] at hnone
        exact absurd hnone.1 (hne path' (List.mem_cons_of_mem _ List.mem_cons_self))

/-- The paths below a directory that is a word have words. -/
theorem arguments_ne_nil (hdir : h.arguments dir = [dir]) {path : Text}
    (hpath : path ∈ fs.walk dir) : h.arguments path ≠ [] := by
  intro hnil
  have hwords : words path = [] := by
    cases hw : words path with
    | nil => rfl
    | cons w ws =>
      rw [Host.arguments, hw, List.flatMap_cons, List.append_eq_nil_iff] at hnil
      exact absurd hnil.1 (h.expand_ne_nil w)
  have hblank := words_eq_nil_iff.mp hwords
  have hdirwords : words dir = [] :=
    words_eq_nil_iff.mpr fun c hc => hblank c ((fs.walk_begins dir path hpath).subset hc)
  rw [Host.arguments, hdirwords] at hdir
  cases hdir

/-- What a query of a name that is a word reads. -/
theorem reads_eq_some_iff (hdir : h.arguments dir = [dir]) {n path : Text} {date : Int}
    (hn : h.arguments n = [n]) : fs.reads h dir n = some (path, date) ↔
      (∃ found, fs.find h dir n = [found] ∧ h.arguments found = [path]) ∧
        fs.notAfter path = some date := by
  have hCERTDIR : fs.CERTDIR h dir n = fs.find h dir n := by
    rw [Files.CERTDIR, hn]
  have hne : ∀ q ∈ fs.find h dir n, h.arguments q ≠ [] := by
    intro q hq
    rw [find_eq hdir] at hq
    exact arguments_ne_nil hdir (List.mem_filter.mp hq).1
  rw [Files.reads, hCERTDIR, arguments_capture]
  constructor
  · intro hreads
    split at hreads
    · next path' hone =>
      obtain ⟨date', hdate, heq⟩ := Option.map_eq_some_iff.mp hreads
      obtain ⟨rfl, rfl⟩ := Prod.mk.inj heq
      exact ⟨flatMap_eq_singleton hne hone, hdate⟩
    · cases hreads
  · rintro ⟨⟨found, hfind, hfound⟩, hdate⟩
    rw [hfind, List.flatMap_singleton, hfound]
    simp only [hdate, Option.map_some]

/-- The days of a query that reads a certificate. -/
theorem run_eq_days_iff {today now : Int} {n path : Text} {k : Int}
    (hn : n ≠ "Discover".toList) : fs.run h today now dir n = .days (some path) k ↔
      ∃ date, fs.reads h dir n = some (path, date) ∧ k = Int.tdiv (date - now) 86400 := by
  rw [Files.run, if_neg hn]
  cases fs.reads h dir n with
  | none => simp
  | some r =>
    obtain ⟨path', date⟩ := r
    simp only [Output.days.injEq, Option.some.injEq, Prod.mk.injEq]
    constructor
    · rintro ⟨rfl, rfl⟩
      exact ⟨date, ⟨rfl, rfl⟩, rfl⟩
    · rintro ⟨date', ⟨rfl, rfl⟩, rfl⟩
      exact ⟨rfl, rfl⟩

/-- The shell rounds down where there is nothing to round, or the time is not over. -/
theorem tdiv_eq_fdiv_iff (a : Int) : Int.tdiv a 86400 = Int.fdiv a 86400 ↔ 0 ≤ a ∨ 86400 ∣ a := by
  rw [Int.tdiv_eq_ediv, Int.fdiv_eq_ediv_of_nonneg a (by decide)]
  split_ifs with ha
  · exact iff_of_true (Int.add_zero _) ha
  · refine iff_of_false ?_ ha
    have hsign : Int.sign 86400 = 1 := rfl
    omega

/-- The name of a certificate is not the name of the other mode. -/
theorem ne_Discover_of_crt {n : Text} (hn : ".crt".toList <:+ n) : n ≠ "Discover".toList := by
  rintro rfl
  have hsuffix : ".crt".toList.isSuffixOf "Discover".toList = false := by decide
  rw [← List.isSuffixOf_iff_suffix, hsuffix] at hn
  cases hn

end Query

/-! ## The whole tree -/

section Tree

variable {h : Host} {fs : Files} {dir : Text}

/-- The names of the discovery are base names of certificates. -/
theorem names_sublist (hdir : h.arguments dir = [dir]) :
    (fs.names h dir).Sublist ((fs.crt dir).map baseName) := by
  rw [Files.names]
  split
  · next p hp =>
    have hmem : p ∈ h.expand "*.crt".toList := by
      have hwords : words "*.crt".toList = ["*.crt".toList] := by decide
      rw [Host.arguments, hwords, List.flatMap_singleton] at hp
      rw [hp]
      exact List.mem_singleton_self p
    rw [find_eq hdir]
    refine List.Sublist.map _ (List.monotone_filter_right _ fun path hpath => ?_)
    exact List.isSuffixOf_iff_suffix.mpr (fs.fnmatch_crt p (h.expand_crt p hmem) _ hpath)
  · exact List.nil_sublist _

/-- A pattern that finds every certificate finds nothing else. -/
theorem names_eq (hdir : h.arguments dir = [dir]) {p : Text}
    (hp : h.arguments "*.crt".toList = [p])
    (hall : ∀ path ∈ fs.crt dir, fs.fnmatch p (baseName path) = true) :
    fs.names h dir = (fs.crt dir).map baseName := by
  refine (names_sublist hdir).eq_of_length_le ?_
  have hsub : (fs.crt dir).Sublist (fs.find h dir p) := by
    have hfilter : fs.crt dir = (fs.crt dir).filter fun path => fs.fnmatch p (baseName path) :=
      (List.filter_eq_self.mpr hall).symm
    rw [hfilter, find_eq hdir]
    exact List.filter_sublist.filter _
  rw [Files.names, hp, List.length_map, List.length_map]
  exact hsub.length_le

/-- What is emitted if all names can be written. -/
theorem emitted_perm {names : List Text} (hnames : fs.names h dir = names)
    (hcrt : ∀ n ∈ names, ".crt".toList <:+ n) (hw : h.CertsWritable names) :
    (fs.emitted h dir).Perm names := by
  obtain ⟨found, hperm, hfound⟩ := certs_exact h hcrt hw
  rw [Files.emitted, hnames, hfound]
  simp only [discovered_document]
  exact hperm

theorem crt_of_mem_map {n : Text} (hn : n ∈ (fs.crt dir).map baseName) : ".crt".toList <:+ n := by
  obtain ⟨path, hpath, rfl⟩ := List.mem_map.mp hn
  exact (mem_crt.mp hpath).2

/-- A certificate that its name leads back to is read with its days. -/
theorem answers_of_unique {today now : Int} {path : Text} {date : Int}
    (hdir : h.arguments dir = [dir]) (hpath : path ∈ fs.crt dir)
    (hname : h.arguments (baseName path) = [baseName path]) (hunique : fs.Unique h dir path)
    (hdate : fs.notAfter path = some date) (hclock : now ≤ date ∨ 86400 ∣ date - now) :
    fs.Answers h today now dir (baseName path) path := by
  obtain ⟨hwalk, hcrt⟩ := mem_crt.mp hpath
  refine ⟨hwalk, rfl, date, hdate, ?_⟩
  rw [run_eq_days_iff (ne_Discover_of_crt hcrt)]
  refine ⟨date, (reads_eq_some_iff hdir hname).mpr ⟨hunique, hdate⟩, ?_⟩
  exact ((tdiv_eq_fdiv_iff _).mpr (hclock.imp_left Int.sub_nonneg_of_le)).symm

/-- The days of an answer to an expired certificate are negative. -/
theorem neg_of_answers {today now : Int} {n path path' : Text} {date k : Int}
    (h₁ : fs.Answers h today now dir n path) (h₂ : fs.run h today now dir n = .days (some path') k)
    (hdate : fs.notAfter path' = some date) (hexpired : date < now) : k < 0 := by
  obtain ⟨-, -, date', hdate', hrun⟩ := h₁
  rw [hrun, Output.days.injEq, Option.some.injEq] at h₂
  obtain ⟨rfl, rfl⟩ := h₂
  obtain rfl : date' = date := Option.some.inj (hdate'.symm.trans hdate)
  rw [Int.fdiv_eq_ediv_of_nonneg _ (by decide)]
  omega

theorem agree_of_queryable {now : Int} (today : Int) (hq : fs.Queryable h now dir) :
    fs.Agree h today now dir := by
  obtain ⟨hdir, hcertificates, ⟨p, hp, hall⟩, hwritable, hunique, hclock⟩ := hq
  have hperm := emitted_perm (names_eq hdir hp hall) (fun _ => crt_of_mem_map) hwritable
  have hanswers : ∀ path ∈ fs.crt dir, fs.Answers h today now dir (baseName path) path := by
    intro path hpath
    obtain ⟨date, hdate⟩ := Option.isSome_iff_exists.mp (hcertificates path hpath)
    have hname := (hwritable.2 _ (List.mem_map_of_mem hpath)).1
    exact answers_of_unique hdir hpath hname (hunique path hpath) hdate
      (hclock path hpath date hdate)
  have hanswered : ∀ n ∈ fs.emitted h dir, ∃ path, fs.Answers h today now dir n path := by
    intro n hn
    obtain ⟨path, hpath, rfl⟩ := List.mem_map.mp (hperm.mem_iff.mp hn)
    exact ⟨path, hanswers path hpath⟩
  refine ⟨hanswered, fun path hpath _ => ?_, fun n hn path date k hdate hexpired hrun => ?_⟩
  · exact ⟨baseName path, hperm.mem_iff.mpr (List.mem_map_of_mem hpath), hanswers path hpath⟩
  · obtain ⟨path', hpath'⟩ := hanswered n hn
    exact neg_of_answers hpath' hrun hdate hexpired

theorem mem_of_mem_baseName {path : Text} {c : Char} (hc : c ∈ baseName path) : c ∈ path := by
  have hpiece : ∀ t, c ∈ lastPiece '/' t → c ∈ t := by
    intro t ht
    by_cases hslash : '/' ∈ t
    · obtain ⟨s, u, rfl, hu⟩ := exists_last_split hslash
      rw [lastPiece_append_cons, lastPiece_of_notMem hu] at ht
      exact List.mem_append_right _ (List.mem_cons_of_mem _ ht)
    · rwa [lastPiece_of_notMem hslash] at ht
  exact (List.rdropWhile_prefix _ _).subset (hpiece _ hc)

/-- Certificates with paths of letters without a meaning, whose names no other file has. -/
theorem queryable_of_letters {now : Int} (hstar : h.expand "*.crt".toList = ["*.crt".toList])
    (hdirne : dir ≠ []) (hdir : Letters dir) (hcertificates : fs.OnlyCertificates dir)
    (hne : fs.crt dir ≠ []) (hletters : ∀ path ∈ fs.crt dir, Letters path)
    (hnames : ∀ path ∈ fs.crt dir, ∀ other ∈ fs.walk dir,
      baseName other = baseName path → other = path)
    (hclock : ∀ path ∈ fs.crt dir, ∀ date, fs.notAfter path = some date →
      now ≤ date ∨ 86400 ∣ date - now) : fs.Queryable h now dir := by
  have hbase : ∀ n ∈ (fs.crt dir).map baseName, Letters n := by
    intro n hn
    obtain ⟨path, hpath, rfl⟩ := List.mem_map.mp hn
    exact fun c hc => hletters path hpath c (mem_of_mem_baseName hc)
  have hword := arguments_of_letters h hdirne hdir
  have hwritable : h.CertsWritable ((fs.crt dir).map baseName) :=
    writable_of_letters h (fun hnil => hne (List.map_eq_nil_iff.mp hnil))
      (fun _ => crt_of_mem_map) hbase
  have hpattern : h.arguments "*.crt".toList = ["*.crt".toList] := by
    have hwords : words "*.crt".toList = ["*.crt".toList] := by decide
    rw [Host.arguments, hwords, List.flatMap_singleton, hstar]
  refine ⟨hword, hcertificates, ⟨_, hpattern, fun path hpath => ?_⟩, hwritable,
    fun path hpath => ?_, hclock⟩
  · exact fs.fnmatch_star _ (mem_crt.mp hpath).2
  · have hplain := notMem_pattern_of_letters (hbase _ (List.mem_map_of_mem hpath))
    have hpathne : path ≠ [] := by
      rintro rfl
      exact absurd (mem_crt.mp hpath).2.length_le (by decide)
    have hfilter : ((fs.walk dir).filter fun other => fs.fnmatch (baseName path) (baseName other)) =
        (fs.walk dir).filter fun other => other == path := by
      refine List.filter_congr fun other hother => ?_
      rw [fs.fnmatch_plain _ hplain, Bool.eq_iff_iff, decide_eq_true_iff, beq_iff_eq]
      exact ⟨fun heq => hnames path hpath other hother heq.symm, fun heq => heq ▸ rfl⟩
    refine ⟨path, ?_, arguments_of_letters h hpathne (hletters path hpath)⟩
    rw [find_eq hword, hfilter, List.filter_beq,
      List.count_eq_one_of_mem (fs.walk_nodup dir) (mem_crt.mp hpath).1]
    rfl

/-- An answer is that of the certificate it reads, whose name it has. -/
theorem eq_of_answers {today now : Int} {n path path' : Text}
    (h₁ : fs.Answers h today now dir n path) (h₂ : fs.Answers h today now dir n path') :
    path = path' := by
  obtain ⟨-, -, date, -, hrun⟩ := h₁
  obtain ⟨-, -, date', -, hrun'⟩ := h₂
  rw [hrun, Output.days.injEq, Option.some.injEq] at hrun'
  exact hrun'.1

/-- The names of the certificates are distinct and among the emitted ones. -/
theorem names_subperm {today now : Int} (hcertificates : fs.OnlyCertificates dir)
    (hagree : fs.Agree h today now dir) :
    ((fs.crt dir).map baseName).Subperm (fs.emitted h dir) := by
  have hanswers : ∀ path ∈ fs.crt dir, baseName path ∈ fs.emitted h dir ∧
      fs.Answers h today now dir (baseName path) path := by
    intro path hpath
    obtain ⟨n, hn, hanswer⟩ := hagree.covered path hpath (hcertificates path hpath)
    rw [hanswer.2.1]
    exact ⟨hn, hanswer⟩
  have hnodup : ((fs.crt dir).map baseName).Nodup := by
    refine List.Nodup.map_on (fun path hpath path' hpath' hname => ?_)
      ((fs.walk_nodup dir).filter _)
    have hanswer := (hanswers path hpath).2
    rw [hname] at hanswer
    exact eq_of_answers hanswer (hanswers path' hpath').2
  refine hnodup.subperm fun n hn => ?_
  obtain ⟨path, hpath, rfl⟩ := List.mem_map.mp hn
  exact (hanswers path hpath).1

/-- The empty name that is emitted without certificates has no answer. -/
theorem names_ne_nil {today now : Int} (hagree : fs.Agree h today now dir) :
    fs.names h dir ≠ [] := by
  intro hnil
  have hemitted : fs.emitted h dir = [[]] := by
    rw [Files.emitted, hnil, loads_Discover_noCerts]
    exact discovered_document [[]]
  obtain ⟨path, -, hname, date, hdate, -⟩ :=
    hagree.answered [] (hemitted ▸ List.mem_singleton_self [])
  exact fs.name_ne_nil path (by rw [hdate]; rfl) hname

/-- What an answer to the name of a certificate says about the way back to it. -/
theorem unique_of_answers {today now : Int} {n path : Text} (hdir : h.arguments dir = [dir])
    (hcrt : ".crt".toList <:+ n) (hn : h.arguments n = [n])
    (hanswer : fs.Answers h today now dir n path) : ∃ date, fs.notAfter path = some date ∧
      fs.Unique h dir path ∧ (now ≤ date ∨ 86400 ∣ date - now) := by
  obtain ⟨-, rfl, date, hdate, hrun⟩ := hanswer
  rw [run_eq_days_iff (ne_Discover_of_crt hcrt)] at hrun
  obtain ⟨date', hreads, hk⟩ := hrun
  obtain ⟨hunique, hdate'⟩ := (reads_eq_some_iff hdir hn).mp hreads
  obtain rfl : date = date' := Option.some.inj (hdate.symm.trans hdate')
  exact ⟨date, hdate, hunique, ((tdiv_eq_fdiv_iff _).mp hk.symm).imp_left Int.le_of_sub_nonneg⟩

/-- A discovery that finds anything has a pattern, and the names it finds match it. -/
theorem pattern_of_names_ne_nil (hdir : h.arguments dir = [dir]) (hne : fs.names h dir ≠ []) :
    ∃ p, h.arguments "*.crt".toList = [p] ∧ ∀ n ∈ fs.names h dir, fs.fnmatch p n = true := by
  rw [Files.names] at hne ⊢
  split at hne
  · next p hp =>
    refine ⟨p, hp, fun n hn => ?_⟩
    obtain ⟨path, hfind, rfl⟩ := List.mem_map.mp hn
    rw [find_eq hdir] at hfind
    exact (List.mem_filter.mp hfind).2
  · exact absurd rfl hne

/-- Names that are all among the emitted ones can be written. -/
theorem writable_of_emitted (hcrt : ∀ n ∈ fs.names h dir, ".crt".toList <:+ n)
    (hne : fs.names h dir ≠ []) (hstays : h.Stays (fs.names h dir))
    (hsubperm : (fs.names h dir).Subperm (fs.emitted h dir)) :
    h.CertsWritable (fs.names h dir) := by
  cases hv : loads (h.Discover (fs.names h dir)) with
  | none =>
    have hemitted : fs.emitted h dir = [] := by rw [Files.emitted, hv]
    rw [hemitted] at hsubperm
    exact absurd (List.subperm_nil.mp hsubperm) hne
  | some v =>
    have hemitted : fs.emitted h dir = discovered v := by rw [Files.emitted, hv]
    rw [hemitted] at hsubperm
    exact writable_of_subperm h hcrt hne hstays hv hsubperm

theorem queryable_of_agree {today now : Int} (hdir : h.arguments dir = [dir])
    (hcertificates : fs.OnlyCertificates dir) (hstays : h.Stays ((fs.crt dir).map baseName))
    (hagree : fs.Agree h today now dir) : fs.Queryable h now dir := by
  have hsub : (fs.names h dir).Sublist ((fs.crt dir).map baseName) := names_sublist hdir
  have hsubperm := names_subperm hcertificates hagree
  have hne := names_ne_nil hagree
  have hcrt : ∀ n ∈ fs.names h dir, ".crt".toList <:+ n :=
    fun n hn => crt_of_mem_map (hsub.subset hn)
  have hwritable := writable_of_emitted hcrt hne (fun n hn => hstays n (hsub.subset hn))
    (hsub.subperm.trans hsubperm)
  have hperm := emitted_perm rfl hcrt hwritable
  have hnames : fs.names h dir = (fs.crt dir).map baseName :=
    hsub.eq_of_length_le (hsubperm.trans hperm.subperm).length_le
  rw [hnames] at hwritable
  have hback : ∀ path ∈ fs.crt dir, ∃ date, fs.notAfter path = some date ∧
      fs.Unique h dir path ∧ (now ≤ date ∨ 86400 ∣ date - now) := by
    intro path hpath
    obtain ⟨n, -, hanswer⟩ := hagree.covered path hpath (hcertificates path hpath)
    have hn : n ∈ (fs.crt dir).map baseName := hanswer.2.1 ▸ List.mem_map_of_mem hpath
    exact unique_of_answers hdir (crt_of_mem_map hn) (hwritable.2 n hn).1 hanswer
  refine ⟨hdir, hcertificates, ?_, hwritable, fun path hpath => ?_,
    fun path hpath date hdate => ?_⟩
  · obtain ⟨p, hp, hmatch⟩ := pattern_of_names_ne_nil hdir hne
    exact ⟨p, hp, fun path hpath => hmatch _ (hnames ▸ List.mem_map_of_mem hpath)⟩
  · obtain ⟨-, -, hunique, -⟩ := hback path hpath
    exact hunique
  · obtain ⟨date', hdate', -, hclock⟩ := hback path hpath
    obtain rfl : date = date' := Option.some.inj (hdate.symm.trans hdate')
    exact hclock

/-- Discovery and queries agree if the tree can be queried; where the tree has nothing but
certificates, at a path that is a word, and no name has a word that stands for other files, they
agree only then. -/
theorem agree_exact (h : Host) (fs : Files) (today now : Int) (dir : Text) :
    (fs.Queryable h now dir → fs.Agree h today now dir) ∧
      (h.arguments dir = [dir] ∧ fs.OnlyCertificates dir ∧ h.Stays ((fs.crt dir).map baseName) →
        (fs.Agree h today now dir ↔ fs.Queryable h now dir)) :=
  ⟨agree_of_queryable today, fun ⟨hdir, hcertificates, hstays⟩ =>
    ⟨queryable_of_agree hdir hcertificates hstays, agree_of_queryable today⟩⟩

end Tree

section Example

/-- The directory `/c` with certificates that end at the beginning of the epoch. -/
def below (paths : List Text) (hnodup : paths.Nodup)
    (hpaths : ∀ path ∈ paths, "/c".toList.isPrefixOf path = true ∧ baseName path ≠ []) : Files where
  walk := fun start => if start = "/c".toList then paths else []
  notAfter := fun path =>
    if paths.contains path && ".crt".toList.isSuffixOf (baseName path) then some 0 else none
  fnmatch := fun pattern name =>
    if pattern = "*.crt".toList then ".crt".toList.isSuffixOf name else decide (pattern = name)
  expression := fun _ _ => []
  walk_nodup := by
    intro start
    split_ifs
    · exact hnodup
    · exact List.nodup_nil
  walk_begins := by
    intro start path hpath
    split_ifs at hpath with hstart
    · exact hstart ▸ List.isPrefixOf_iff_prefix.mp (hpaths path hpath).1
    · cases hpath
  name_ne_nil := by
    intro path hsome
    split_ifs at hsome with hpath
    · have hmem := List.contains_iff_mem.mp (Bool.and_eq_true_iff.mp hpath).1
      exact (hpaths path hmem).2
    · cases hsome
  fnmatch_plain := by
    intro pattern hplain name
    refine if_neg ?_
    rintro rfl
    exact hplain '*' (by decide) (by decide)
  fnmatch_crt := by
    intro pattern hpattern name hmatch
    split_ifs at hmatch with hstar
    · exact List.isSuffixOf_iff_suffix.mp hmatch
    · exact of_decide_eq_true hmatch ▸ hpattern
  fnmatch_star := fun _ hname => List.isSuffixOf_iff_suffix.mpr hname

/-- Two certificates with the same name. -/
def twins : Files := below ["/c".toList, "/c/a".toList, "/c/a/x.crt".toList, "/c/b".toList,
  "/c/b/x.crt".toList] (by decide) (by decide)

/-- A single certificate. -/
def single : Files := below ["/c".toList, "/c/x.crt".toList] (by decide) (by decide)

/-- The query of a name that two certificates have reads nothing, and an hour after its end the
days of a certificate are still zero. -/
theorem twins_single_not_agree : ¬twins.Agree bareHost 0 0 "/c".toList ∧
    ¬single.Agree bareHost 0 3600 "/c".toList := by
  constructor
  · intro h
    have hemitted : "x.crt".toList ∈ twins.emitted bareHost "/c".toList := by decide +kernel
    have hrun : twins.run bareHost 0 0 "/c".toList "x.crt".toList = .days none 0 := by
      decide +kernel
    obtain ⟨path, -, -, date, -, hanswer⟩ := h.answered _ hemitted
    rw [hrun] at hanswer
    cases hanswer
  · intro h
    have hemitted : "x.crt".toList ∈ single.emitted bareHost "/c".toList := by decide +kernel
    have hrun : single.run bareHost 0 3600 "/c".toList "x.crt".toList =
        .days (some "/c/x.crt".toList) 0 := by decide +kernel
    have hdate : single.notAfter "/c/x.crt".toList = some 0 := by decide +kernel
    exact absurd (h.expired _ hemitted _ 0 0 hdate (by decide) hrun) (by decide)

end Example

end OpsScripts.Zabbix
