import OpsScripts.Core.DateTime
import OpsScripts.OneC.Licences
import OpsScripts.OneC.SesallRun

/-!
# One presentation, two parsers

A full presentation is the name of the server, a process number, in the long layout the licence
server and its port, the key with its two user counts, and a path, with commas between them. The
script of Linux finds out the layout by counting words and takes the second user count; the
script of Windows counts commas and takes the first one.
-/

namespace OpsScripts.OneC

/-! ## The script of Windows -/

namespace Windows

/-- The text of `$lickeys` that comes from a line. -/
def lickey [Culture] (line : Text) : Option Text :=
  if hasKeyword line "full-presentation" then some (stripKey line) else none

/-- The keyword is read as a literal. -/
theorem parse_keyword [Culture] : Regex.parse (letterEq true) "full-presentation".toList =
    .pattern (Regex.literal (Regex.dotEq (letterEq true)) "full-presentation".toList) :=
  Regex.parse_withDots _ (by decide +kernel)

/-- Where the server and the key stand: the number of parts is compared as
`-inotmatch 6`, so a 6 among its digits is enough for the long layout. -/
def places (key : Text) : Places :=
  if '6' ∈ decimal (key.splitOn ',').length then ⟨2, 4⟩ else ⟨0, 2⟩

/-- The parts of a presentation that are printed. -/
structure Parts where
  KeyNumber : Text
  LicServer : Text
  LicOnKey : Text

/-- The parts of a presentation. An index past the end gives null, which is printed as nothing;
to call a method of it is an error. -/
def parts (key : Text) : Option Parts := do
  let at_ := places key
  let numbers ← piece ',' at_.key key
  let LicServer ← piece ',' at_.server key
  some ⟨(piece ' ' 1 numbers).getD [], trim LicServer, (piece ' ' 2 numbers).getD []⟩

end Windows

/-! ## Presentations -/

/-- A part of a presentation: on one line and without commas. -/
structure Component where
  text : Text
  comma : ',' ∉ text
  line : OneLine text

/-- A number as it is printed: a word without commas. -/
structure Figure where
  text : Text
  nonempty : text ≠ []
  word : ∀ c ∈ text, isPySpace c = false
  comma : ',' ∉ text

/-- The number of a key with the user counts of all keys and of this one. -/
structure LicenceKey where
  number : Figure
  usersAll : Figure
  usersCur : Figure

/-- The two layouts. -/
inductive FullPresentation where
  | short (name pid : Component) (key : LicenceKey) (path : Component)
  | long (name pid server port : Component) (key : LicenceKey) (path : Component)

/-- `number users-all users-cur`. -/
def LicenceKey.component (k : LicenceKey) : Component where
  text := k.number.text ++ ' ' :: (k.usersAll.text ++ ' ' :: k.usersCur.text)
  comma := by
    have h := k.number.comma
    have h' := k.usersAll.comma
    have h'' := k.usersCur.comma
    simp [h, h', h'']
  line := by
    have hbreak : ∀ f : Figure, OneLine f.text := fun f =>
      ⟨fun h => absurd (f.word _ h) (by decide), fun h => absurd (f.word _ h) (by decide)⟩
    simp [OneLine, (hbreak _).1, (hbreak _).2]

/-- The parts behind the first one, each with its comma. -/
def behindFirst (cs : List Component) : Text := cs.flatMap fun c => ',' :: ' ' :: c.text

namespace FullPresentation

/-- The name, which stands first. -/
def first : FullPresentation → Component
  | short name _ _ _ => name
  | long name _ _ _ _ _ => name

/-- The other parts. -/
def others : FullPresentation → List Component
  | short _ pid key path => [pid, key.component, path]
  | long _ pid server port key path => [pid, server, port, key.component, path]

/-- The text of a presentation. -/
def text (l : FullPresentation) : Text := l.first.text ++ behindFirst l.others

/-- Its line in the listing. -/
def line (l : FullPresentation) : Text := keyLine "full-presentation  ".toList l.text

/-- The number of the process. -/
def pid : FullPresentation → Component
  | short _ pid _ _ => pid
  | long _ pid _ _ _ _ => pid

/-- The licence server. -/
def server : FullPresentation → Component
  | short name _ _ _ => name
  | long _ _ server _ _ _ => server

/-- The key. -/
def key : FullPresentation → LicenceKey
  | short _ _ key _ => key
  | long _ _ _ _ key _ => key

/-- Where the server and the key stand. -/
def places : FullPresentation → Places
  | short .. => ⟨0, 2⟩
  | long .. => ⟨2, 4⟩

end FullPresentation

/-- Both scripts take the same layout from the line and print the same of it. -/
def Agree [Culture] (l : FullPresentation) : Prop :=
  ∃ element key, alllic (unlines [l.line]) = [element] ∧ Windows.lickey l.line = some key ∧
    places element = Windows.places key ∧
    ∃ p q, parts element = some p ∧ Windows.parts key = some q ∧
      p.KeyNumber = q.KeyNumber ∧ p.LicServer = q.LicServer ∧ p.LicOnKey = q.LicOnKey

/-! ## Words -/

/-- The number of words. -/
def wordCount (t : Text) : Nat := (splitWords t).length

theorem wordCount_append_cons (s t : Text) {x : Char} (hx : isPySpace x = true) :
    wordCount (s ++ x :: t) = wordCount s + wordCount t := by
  rw [wordCount, splitWords, List.splitOnP_append_cons s t hx, List.filter_append,
    List.length_append]
  rfl

/-- A blank in front makes no word. -/
theorem wordCount_blank (t : Text) : wordCount (' ' :: t) = wordCount t := by
  have happend := wordCount_append_cons [] t (x := ' ') (by decide)
  rwa [List.nil_append, show wordCount [] = 0 from rfl, Nat.zero_add] at happend

theorem wordCount_word {t : Text} (hne : t ≠ []) (h : ∀ c ∈ t, isPySpace c = false) :
    wordCount t = 1 := by
  rw [wordCount, splitWords, List.splitOnP_eq_singleton h]
  cases t with
  | nil => exact absurd rfl hne
  | cons c t => rfl

/-- A text that is not blank has a word. -/
theorem wordCount_pos_iff {t : Text} : 0 < wordCount t ↔ ∃ c ∈ t, isPySpace c = false := by
  induction t with
  | nil => simp [wordCount, splitWords]
  | cons x t ih =>
    cases hx : isPySpace x with
    | true =>
      rw [← List.nil_append (x :: t), wordCount_append_cons [] t hx, List.nil_append,
        show wordCount [] = 0 from rfl, Nat.zero_add, ih]
      simp [hx]
    | false =>
      refine iff_of_true ?_ ⟨x, List.mem_cons_self, hx⟩
      obtain ⟨u, us, hu⟩ := List.exists_cons_of_ne_nil (List.splitOnP_ne_nil isPySpace t)
      rw [wordCount, splitWords, List.splitOnP_cons_eq_if_modifyHead, hx, hu]
      exact Nat.succ_pos _

/-- The words of a part with its comma. -/
def Component.words (c : Component) : Nat := wordCount (c.text ++ [','])

theorem Component.words_pos (c : Component) : 0 < c.words :=
  wordCount_pos_iff.mpr ⟨',', by simp, by decide⟩

theorem LicenceKey.words_component (k : LicenceKey) : k.component.words = 3 := by
  have hcur : ∀ c ∈ k.usersCur.text ++ [','], isPySpace c = false := by
    intro c hc
    rcases List.mem_append.mp hc with hc | hc
    · exact k.usersCur.word c hc
    · rw [List.mem_singleton.mp hc]
      decide
  rw [Component.words, component, List.append_assoc, List.cons_append, List.append_assoc,
    List.cons_append, wordCount_append_cons _ _ (by decide), wordCount_append_cons _ _ (by decide),
    wordCount_word k.number.nonempty k.number.word,
    wordCount_word k.usersAll.nonempty k.usersAll.word, wordCount_word (by simp) hcur]

/-- Every part but the last one counts with its comma. -/
theorem wordCount_behindFirst (t : Text) (c : Component) (cs : List Component) :
    wordCount (t ++ behindFirst (c :: cs)) =
      wordCount (t ++ [',']) + wordCount (c.text ++ behindFirst cs) := by
  have hsplit : t ++ behindFirst (c :: cs) = (t ++ [',']) ++ ' ' :: (c.text ++ behindFirst cs) := by
    simp only [behindFirst, List.flatMap_cons, List.append_assoc, List.cons_append,
      List.nil_append]
  rw [hsplit, wordCount_append_cons _ _ (by decide)]

/-- The number of words fits the layout; the three words of the key are not counted. -/
def FullPresentation.WordsFit : FullPresentation → Prop
  | short name pid _ path => name.words + pid.words + wordCount path.text < 5
  | long name pid server port _ path =>
    5 ≤ name.words + pid.words + server.words + port.words + wordCount path.text

/-- In the long layout there are always enough words in front of a path that is not blank. -/
theorem wordsFit_long (name pid server port : Component) (key : LicenceKey) {path : Component}
    (h : ∃ c ∈ path.text, isPySpace c = false) :
    (FullPresentation.long name pid server port key path).WordsFit := by
  have hname := name.words_pos
  have hpid := pid.words_pos
  have hserver := server.words_pos
  have hport := port.words_pos
  have hpath := wordCount_pos_iff.mpr h
  rw [FullPresentation.WordsFit]
  omega

theorem behindFirst_nil : behindFirst [] = [] := rfl

/-- The script of Linux finds the layout exactly if the words fit. -/
theorem places_iff (l : FullPresentation) : places (' ' :: l.text) = l.places ↔ l.WordsFit := by
  have hcount : (splitWords (' ' :: l.text)).length = wordCount l.text := wordCount_blank _
  rw [places, hcount, FullPresentation.text]
  cases l with
  | short name pid key path =>
    have hwords : wordCount (name.text ++ behindFirst [pid, key.component, path]) =
        name.words + pid.words + wordCount path.text + 3 := by
      rw [wordCount_behindFirst, wordCount_behindFirst, wordCount_behindFirst, behindFirst_nil,
        List.append_nil]
      change name.words + (pid.words + (key.component.words + wordCount path.text)) = _
      rw [key.words_component]
      omega
    rw [FullPresentation.first, FullPresentation.others, hwords, FullPresentation.WordsFit,
      FullPresentation.places]
    split_ifs with hlt
    · exact iff_of_true rfl (by omega)
    · exact iff_of_false (by simp) (by omega)
  | long name pid server port key path =>
    have hwords : wordCount (name.text ++ behindFirst [pid, server, port, key.component, path]) =
        name.words + pid.words + server.words + port.words + 3 + wordCount path.text := by
      rw [wordCount_behindFirst, wordCount_behindFirst, wordCount_behindFirst,
        wordCount_behindFirst, wordCount_behindFirst, behindFirst_nil, List.append_nil]
      change name.words + (pid.words + (server.words + (port.words +
        (key.component.words + wordCount path.text)))) = _
      rw [key.words_component]
      omega
    rw [FullPresentation.first, FullPresentation.others, hwords, FullPresentation.WordsFit,
      FullPresentation.places]
    split_ifs with hlt
    · exact iff_of_false (by simp) (by omega)
    · exact iff_of_true rfl (by omega)

/-! ## The parts between the commas -/

theorem splitOn_behindFirst {t : Text} (ht : ',' ∉ t) (cs : List Component) :
    (t ++ behindFirst cs).splitOn ',' = t :: cs.map fun c => ' ' :: c.text := by
  induction cs generalizing t with
  | nil => rw [behindFirst_nil, List.append_nil, List.splitOn_eq_singleton ht, List.map_nil]
  | cons c cs ih =>
    have hc : ',' ∉ ' ' :: c.text := by simp [c.comma]
    have hcons : t ++ behindFirst (c :: cs) = t ++ ',' :: ((' ' :: c.text) ++ behindFirst cs) := by
      rw [behindFirst, List.flatMap_cons]
      rfl
    rw [hcons, List.splitOn_append_cons_self_of_not_mem ht, ih hc, List.map_cons]

/-- The parts that the script of Windows sees. -/
theorem splitOn_text (l : FullPresentation) :
    l.text.splitOn ',' = l.first.text :: l.others.map fun c => ' ' :: c.text :=
  splitOn_behindFirst l.first.comma l.others

/-- The parts that the script of Linux sees: also the first one begins with a blank. -/
theorem splitOn_blank_text (l : FullPresentation) :
    (' ' :: l.text).splitOn ',' = (l.first :: l.others).map fun c => ' ' :: c.text := by
  have hfirst : ',' ∉ ' ' :: l.first.text := by simp [l.first.comma]
  exact splitOn_behindFirst hfirst l.others

/-- The words of a key between blanks. -/
theorem LicenceKey.splitOn_component (k : LicenceKey) :
    (' ' :: k.component.text).splitOn ' ' =
      [[], k.number.text, k.usersAll.text, k.usersCur.text] := by
  have hblank : ∀ f : Figure, ' ' ∉ f.text := fun f h => by
    have hspace := f.word _ h
    revert hspace
    decide
  rw [component, ← List.nil_append (' ' :: _),
    List.splitOn_append_cons_self_of_not_mem List.not_mem_nil,
    List.splitOn_append_cons_self_of_not_mem (hblank _),
    List.splitOn_append_cons_self_of_not_mem (hblank _), List.splitOn_eq_singleton (hblank _)]

/-- The script of Windows always finds the layout. -/
theorem Windows.places_text (l : FullPresentation) : Windows.places l.text = l.places := by
  have hshort : decimal 4 = ['4'] := by
    rw [decimal]
    rfl
  have hlong : decimal 6 = ['6'] := by
    rw [decimal]
    rfl
  rw [Windows.places, splitOn_text, List.length_cons, List.length_map]
  cases l with
  | short name pid key path =>
    change (if '6' ∈ decimal 4 then _ else _) = _
    rw [hshort]
    rfl
  | long name pid server port key path =>
    change (if '6' ∈ decimal 6 then _ else _) = _
    rw [hlong]
    rfl

/-- What the script of Windows prints. -/
theorem Windows.parts_text (l : FullPresentation) :
    Windows.parts l.text =
      some ⟨l.key.number.text, trim l.server.text, l.key.usersAll.text⟩ := by
  have hblank : ∀ t : Text, trim (' ' :: t) = trim t := fun _ => rfl
  rw [Windows.parts, Windows.places_text]
  simp only [piece, splitOn_text]
  cases l with
  | short name pid key path =>
    change some (Windows.Parts.mk (((' ' :: key.component.text).splitOn ' ')[1]?.getD [])
      (trim name.text) (((' ' :: key.component.text).splitOn ' ')[2]?.getD [])) = _
    rw [key.splitOn_component]
    rfl
  | long name pid server port key path =>
    change some (Windows.Parts.mk (((' ' :: key.component.text).splitOn ' ')[1]?.getD [])
      (trim (' ' :: server.text)) (((' ' :: key.component.text).splitOn ' ')[2]?.getD [])) = _
    rw [key.splitOn_component, hblank]
    rfl

/-- A number has nothing to strip. -/
theorem Figure.strip_text (f : Figure) : strip f.text = f.text :=
  trim_ends (fun c hc => f.word c (List.mem_of_mem_head? hc))
    fun c hc => f.word c (List.mem_of_mem_getLast? hc)

/-- A word of a part. -/
theorem item_text {l : FullPresentation} {i j : Nat} {c : Component} {t : Text}
    (hc : (l.first :: l.others)[i]? = some c) (ht : ((' ' :: c.text).splitOn ' ')[j]? = some t) :
    item i j (' ' :: l.text) = some (strip t) := by
  rw [item, piece, splitOn_blank_text, List.getElem?_map, hc, Option.map_some, Option.bind_some,
    piece, ht, Option.map_some]

/-- What the script of Linux prints, if it finds the layout. -/
theorem parts_text {l : FullPresentation} (h : places (' ' :: l.text) = l.places) :
    ∃ p, parts (' ' :: l.text) = some p ∧ p.KeyNumber = l.key.number.text ∧
      p.LicServer = strip ((' ' :: l.server.text).filter fun x => x != '"') ∧
      p.LicOnKey = l.key.usersCur.text := by
  have hpid : (l.first :: l.others)[1]? = some l.pid := by cases l <;> rfl
  have hserver : (l.first :: l.others)[l.places.server]? = some l.server := by cases l <;> rfl
  have hkey : (l.first :: l.others)[l.places.key]? = some l.key.component := by cases l <;> rfl
  have hword : ∃ word, ((' ' :: l.pid.text).splitOn ' ')[1]? = some word := by
    obtain ⟨word, words, hsplit⟩ := List.exists_cons_of_ne_nil (List.splitOn_ne_nil ' ' l.pid.text)
    refine ⟨word, ?_⟩
    rw [← List.nil_append (' ' :: l.pid.text),
      List.splitOn_append_cons_self_of_not_mem List.not_mem_nil, hsplit]
    rfl
  obtain ⟨word, hword⟩ := hword
  have hfigures := l.key.splitOn_component
  have hnumber := item_text hkey (j := 1) (t := l.key.number.text) (by rw [hfigures]; rfl)
  have honkey := item_text hkey (j := 3) (t := l.key.usersCur.text) (by rw [hfigures]; rfl)
  have hpiece : piece ',' l.places.server (' ' :: l.text) = some (' ' :: l.server.text) := by
    rw [piece, splitOn_blank_text, List.getElem?_map, hserver, Option.map_some]
  rw [parts, h]
  simp only [item_text hpid hword, hnumber, honkey, hpiece, Option.bind_eq_bind, Option.bind_some]
  exact ⟨_, rfl, l.key.number.strip_text, rfl, l.key.usersCur.strip_text⟩

/-! ## When the scripts agree -/

/-- The characters that only Python counts as white space. -/
def isSeparator (c : Char) : Bool := 0x1c ≤ c.toNat && c.toNat ≤ 0x1f

/-- A server without quotation marks, whose ends are no separators. -/
def PlainServer (t : Text) : Prop :=
  '"' ∉ t ∧ (∀ c ∈ (trim t).head?, isSeparator c = false) ∧
    ∀ c ∈ (trim t).getLast?, isSeparator c = false

/-- Both scripts print the same of a server exactly if it is plain. -/
theorem strip_eq_trim_iff (t : Text) :
    strip ((' ' :: t).filter fun x => x != '"') = trim t ↔ PlainServer t := by
  have hblank : strip ((' ' :: t).filter fun x => x != '"') =
      trimBy isPySpace (t.filter fun x => x != '"') := rfl
  have hwider : ∀ c, isSpace c = true → isPySpace c = true := by
    intro c hc
    rw [isPySpace, hc, Bool.true_or]
  have hends : (∀ c ∈ (trim t).head?, isPySpace c = false) ∧
      (∀ c ∈ (trim t).getLast?, isPySpace c = false) ↔
        (∀ c ∈ (trim t).head?, isSeparator c = false) ∧
          ∀ c ∈ (trim t).getLast?, isSeparator c = false := by
    obtain ⟨hhead, hlast⟩ := ends_trimBy isSpace t
    refine and_congr (forall₂_congr fun c hc => ?_) (forall₂_congr fun c hc => ?_)
    · rw [isPySpace, hhead c hc, Bool.false_or]
      rfl
    · rw [isPySpace, hlast c hc, Bool.false_or]
      rfl
  rw [hblank, PlainServer, ← hends]
  have hplain : '"' ∉ t → (t.filter fun x => x != '"') = t := by
    intro hquote
    refine List.filter_eq_self.mpr fun c hc => ?_
    rw [bne_iff_ne]
    rintro rfl
    exact hquote hc
  constructor
  · intro h
    have hquote : '"' ∉ t := by
      intro hmem
      obtain ⟨a, b, ht, ha, hb⟩ := exists_eq_trimBy isSpace t
      have htrim : '"' ∈ trimBy isPySpace (t.filter fun x => x != '"') := by
        rw [h]
        rw [ht] at hmem
        rcases List.mem_append.mp hmem with hmem | hmem
        · exact (List.mem_append.mp hmem).resolve_left fun hmem =>
            absurd (ha _ hmem) (by decide)
        · exact absurd (hb _ hmem) (by decide)
      obtain ⟨a, b, ht, -, -⟩ := exists_eq_trimBy isPySpace (t.filter fun x => x != '"')
      have hfilter : '"' ∈ t.filter fun x => x != '"' := by
        rw [ht]
        exact List.mem_append_left _ (List.mem_append_right _ htrim)
      exact absurd (List.mem_filter.mp hfilter).2 (by decide)
    rw [hplain hquote] at h
    exact ⟨hquote, (trimBy_eq_trimBy_iff hwider t).mp h⟩
  · rintro ⟨hquote, h⟩
    rw [hplain hquote]
    exact (trimBy_eq_trimBy_iff hwider t).mpr h

theorem FullPresentation.newline_notMem (l : FullPresentation) : '\n' ∉ l.line := by
  have hbehind : ∀ cs : List Component, '\n' ∉ behindFirst cs := by
    intro cs hmem
    obtain ⟨c, -, hc⟩ := List.mem_flatMap.mp hmem
    simp [c.line.1] at hc
  have hkey : '\n' ∉ "full-presentation  ".toList := by decide
  simp only [line, keyLine, printed, text, List.mem_append, List.mem_cons, l.first.line.1,
    hbehind, hkey, or_self, or_false, false_or]
  decide

/-- The script of Linux takes the text with the blank in front of it. -/
theorem alllic_line (l : FullPresentation) : alllic (unlines [l.line]) = [' ' :: l.text] := by
  have hls : ∀ x ∈ [l.line], '\n' ∉ x := by
    intro x hx
    rw [List.mem_singleton.mp hx]
    exact l.newline_notMem
  rw [alllic_unlines hls]
  rfl

/-- The script of Windows takes the text without it. -/
theorem lickey_line [Culture] (l : FullPresentation) : Windows.lickey l.line = some l.text := by
  have hkeyword : Windows.hasKeyword l.line "full-presentation" = true :=
    Windows.hasKeyword_of_infix ⟨[], "  :".toList ++ printed l.text, rfl⟩
  have hstrip : Windows.stripKey l.line = l.text :=
    Windows.stripKey_keyLine (by decide) l.text
  rw [Windows.lickey, hkeyword, if_pos rfl, hstrip]

/-- The scripts agree exactly if the words fit the layout, both user counts are equal and the
server is plain. -/
theorem agree_iff [Culture] (l : FullPresentation) :
    Agree l ↔ l.WordsFit ∧ l.key.usersAll.text = l.key.usersCur.text ∧
      PlainServer l.server.text := by
  rw [← places_iff, ← strip_eq_trim_iff]
  constructor
  · rintro ⟨element, key, helement, hkey, hplaces, p, q, hp, hq, -, hserver, honkey⟩
    rw [alllic_line, List.singleton_inj] at helement
    rw [lickey_line, Option.some.injEq] at hkey
    subst helement hkey
    rw [Windows.places_text] at hplaces
    obtain ⟨p', hp', -, hserver', honkey'⟩ := parts_text hplaces
    obtain rfl := Option.some.inj (hp.symm.trans hp')
    obtain rfl := Option.some.inj (hq.symm.trans (Windows.parts_text l))
    exact ⟨hplaces, honkey.symm.trans honkey', hserver'.symm.trans hserver⟩
  · rintro ⟨hplaces, honkey, hserver⟩
    obtain ⟨p, hp, hnumber, hserver', honkey'⟩ := parts_text hplaces
    exact ⟨_, _, alllic_line l, lickey_line l, hplaces.trans (Windows.places_text l).symm, p, _,
      hp, Windows.parts_text l, hnumber, hserver'.trans hserver, honkey'.trans honkey.symm⟩

/-- A text on one line without commas. -/
def component (t : String) (h : ',' ∉ t.toList ∧ OneLine t.toList := by decide) : Component :=
  ⟨t.toList, h.1, h.2⟩

/-- Digits. -/
def figure (t : String) (h : t.toList ≠ [] ∧ ∀ c ∈ t.toList, isPySpace c = false ∧ c ≠ ',' := by
    decide) : Figure :=
  ⟨t.toList, h.1, fun c hc => (h.2 c hc).1, fun hc => (h.2 _ hc).2 rfl⟩

/-- A server with three words in its name. -/
def namedServer : FullPresentation :=
  .short (component "Main Licence Server") (component "5340")
    ⟨figure "8101922464", figure "100", figure "100"⟩
    (component "file://C:/ProgramData/1C/licenses/20220907121154.lic")

/-- Eight words are taken for the long layout, which has a fifth part. -/
theorem namedServer_not_agree : ¬@Agree Culture.ascii namedServer := by
  rintro ⟨element, key, helement, -, -, p, q, hp, -⟩
  have hnone : (parts (' ' :: namedServer.text)).isNone = true := by decide +kernel
  rw [alllic_line, List.singleton_inj] at helement
  rw [helement, hp] at hnone
  cases hnone

end OpsScripts.OneC
