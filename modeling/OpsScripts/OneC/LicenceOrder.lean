import OpsScripts.Core.Counting
import OpsScripts.Core.SortUnique
import OpsScripts.OneC.Presentation
import OpsScripts.Zabbix.Listings

/-!
# The licence keys of the Windows script

`LicenseKeys` of `1clic.ps1` sorts the presentations before it numbers them, so a slot does not
depend on the order of the sessions: it belongs to the same key as long as the listing shows the
same presentations. The text is put together by hand, and a key that cannot be read prints the
line of its predecessor again.
-/

namespace OpsScripts.OneC.Windows

open Json Zabbix.Listing

/-! ## The mode -/

section Script

variable [Culture] (E : Engine) (le : Text → Text → Bool)

/-- `$lickeys`; `le` is the order of the culture without case. -/
def lickeys (licenseqery : List Text) : List Text :=
  sortUnique (fun s t => le t s) (licenseqery.filterMap lickey)

/-- `$allkey.count/2`. -/
def totalKey (licenseqery : List Text) : Text :=
  let count := licenseqery.countP fun line => hasKeyword line "file://C:/ProgramData/1C/licenses"
  Nat.toDigits 10 (count / 2) ++ if count % 2 = 0 then [] else ".5".toList

/-- `$z.count`: the lines that the key matches as a pattern; an invalid one matches none. -/
def uses (licenseqery : List Text) (key : Text) : Nat :=
  licenseqery.countP ((E.compile true key).getD fun _ => false)

/-- `"name" : "value"`. -/
def member (name : String) (value : Text) : Text :=
  '"' :: (name.toList ++ '"' :: ' ' :: ':' :: ' ' :: '"' :: (value ++ ['"']))

/-- `$line` without its comma. -/
def keyObject (p : Parts) (cindex used : Nat) (total : Text) : Text :=
  "\x7b ".toList ++ member "KeyNumber" p.KeyNumber ++ " , ".toList ++
    member "Slot" (Nat.toDigits 10 cindex) ++ ", ".toList ++
    member "Usedkey" (Nat.toDigits 10 used) ++ ", ".toList ++ member "LicServer" p.LicServer ++
    ", ".toList ++ member "LicOnKey" p.LicOnKey ++ ", ".toList ++ member "TotalKey" total ++
    "  \x7d".toList

/-- The loop over the keys. A key without the parts is an error that leaves `$line` as it was. -/
def keyLines (used : Text → Nat) (total : Text) (count : Nat) : Nat → Text → List Text → List Text
  | _, _, [] => []
  | idx, line, key :: keys =>
    let line := ((parts key).map fun p => keyObject p (idx - 1) (used key) total ++
      if idx < count then [','] else []).getD line
    line :: keyLines used total count (idx + 1) line keys

/-- The lines of the mode `LicenseKeys`. -/
def licenseKeys (licenseqery : List Text) : List Text :=
  let keys := lickeys le licenseqery
  "[\n".toList :: keyLines (uses E licenseqery) (totalKey licenseqery) keys.length 1 [] keys ++
    [[], " ]".toList]

end Script

/-- An order without case. -/
def ordinal [Culture] (s t : Text) : Bool := decide (toLower s ≤ toLower t)

theorem comparison_ordinal [Culture] : Comparison ordinal where
  trans r s t hrs hst := by
    rw [ordinal, decide_eq_true_eq] at hrs hst ⊢
    exact le_trans hrs hst
  total s t := by
    rw [ordinal, ordinal, Bool.or_eq_true, decide_eq_true_eq, decide_eq_true_eq]
    exact le_total _ _

/-- A key of a licence server. -/
def serverKey (number : Figure) : FullPresentation :=
  .long (component "Server") (component "5341") (component "1C-LIC") (component "1585")
    ⟨number, figure "500", figure "500"⟩ (component "file")

/-- Two keys. -/
def firstKey : FullPresentation := serverKey (figure "8101922465")

def secondKey : FullPresentation := serverKey (figure "8101924317")

/-! ## The order of the sessions -/

section Order

variable [Culture] (E : Engine) {le : Text → Text → Bool} {ls ls' : List Text}

/-- The culture tells the presentations of a listing apart. -/
def Apart (le : Text → Text → Bool) (licenseqery : List Text) : Prop :=
  ∀ p ∈ licenseqery.filterMap lickey, ∀ q ∈ licenseqery.filterMap lickey,
    le p q → le q p → p = q

/-- The keys and their slots are the same for the same presentations. -/
theorem lickeys_eq (h : Comparison le) (hapart : Apart le ls)
    (hsame : ∀ key, key ∈ ls'.filterMap lickey ↔ key ∈ ls.filterMap lickey) :
    lickeys le ls' = lickeys le ls :=
  h.flip.sortUnique_eq_of_mem_iff (fun p hp q hq hpq hqp => hapart p hp q hq hqp hpq) hsame

theorem mem_lickeys (h : Comparison le) (hapart : Apart le ls) {key : Text} :
    key ∈ lickeys le ls ↔ key ∈ ls.filterMap lickey :=
  h.flip.mem_sortUnique fun p hp q hq hpq hqp => hapart p hp q hq hqp hpq

theorem uses_perm (hperm : ls'.Perm ls) : uses E ls' = uses E ls := by
  ext key
  exact hperm.countP_eq _

theorem totalKey_perm (hperm : ls'.Perm ls) : totalKey ls' = totalKey ls := by
  simp only [totalKey, hperm.countP_eq]

/-- The lines of the listing can stand in any order: the same is printed. -/
theorem licenseKeys_perm (h : Comparison le) (hapart : Apart le ls) (hperm : ls'.Perm ls) :
    licenseKeys E le ls' = licenseKeys E le ls := by
  have hkeys : lickeys le ls' = lickeys le ls :=
    lickeys_eq h hapart fun key => (hperm.filterMap lickey).mem_iff
  simp only [licenseKeys, hkeys, uses_perm E hperm, totalKey_perm hperm]

end Order

theorem filterMap_lickey [Culture] (ks : List FullPresentation) :
    (ks.map FullPresentation.line).filterMap lickey = ks.map FullPresentation.text := by
  rw [List.filterMap_map]
  exact List.filterMap_eq_map_iff_forall_eq_some.mpr fun k _ => lickey_line k

/-- The two keys are told apart. -/
theorem apart_ordinal : @Apart Culture.ascii (@ordinal Culture.ascii)
    ([firstKey, secondKey].map FullPresentation.line) := by
  have hapart : ∀ p ∈ [firstKey, secondKey].map FullPresentation.text,
      ∀ q ∈ [firstKey, secondKey].map FullPresentation.text,
        p.map Char.toLower = q.map Char.toLower → p = q := by decide +kernel
  let _ := Culture.ascii
  rw [Apart, filterMap_lickey]
  intro p hp q hq hpq hqp
  apply hapart p hp q hq
  exact le_antisymm (of_decide_eq_true hpq) (of_decide_eq_true hqp)

theorem licenseKeys_perm_keys : letI := Culture.ascii
    licenseKeys Engine.core ordinal ([secondKey, firstKey].map FullPresentation.line) =
      licenseKeys Engine.core ordinal ([firstKey, secondKey].map FullPresentation.line) := by
  let _ := Culture.ascii
  exact licenseKeys_perm Engine.core comparison_ordinal apart_ordinal (List.Perm.swap _ _ _)

/-! ## The document -/

theorem plain_digits (n : Nat) : Plain (Nat.toDigits 10 n) := by
  intro c hc
  have hdigit : c.isDigit = true := Nat.isDigit_of_mem_toDigits (by decide) (by decide) hc
  have hbounds : 48 ≤ c.toNat ∧ c.toNat ≤ 57 := by
    simpa [Char.isDigit, Char.le_def, UInt32.le_iff_toNat_le] using hdigit
  have hmark : isMark c = false := by
    rw [isMark, Bool.or_eq_false_iff, beq_eq_false_iff_ne, beq_eq_false_iff_ne]
    constructor <;> rintro rfl <;> revert hbounds <;> decide
  exact ⟨hmark, by omega⟩

theorem plain_totalKey [Culture] (ls : List Text) : Plain (totalKey ls) := by
  have hhalf : Plain ".5".toList := by
    have hall : ∀ c ∈ ".5".toList, isMark c = false ∧ 32 ≤ c.toNat := by decide
    exact hall
  intro c hc
  rw [totalKey] at hc
  rcases List.mem_append.mp hc with hc | hc
  · exact plain_digits _ c hc
  · split_ifs at hc
    · cases hc
    · exact hhalf c hc

theorem isMember_member {name : String} {value : Text} (hname : Plain name.toList)
    (hvalue : Plain value) : IsMember (name.toList, .str value) (' ' :: member name value) :=
  IsMember.mk (a := [' ']) blank_space (spells_plain hname) (b := [' ']) blank_space (c := [' '])
    blank_space (IsValue.str (spells_plain hvalue))

/-- The names of the members. -/
theorem plain_names : ∀ name ∈ ["KeyNumber", "Slot", "Usedkey", "LicServer", "LicOnKey",
    "TotalKey"], Plain name.toList := by
  have hall : ∀ name ∈ ["KeyNumber", "Slot", "Usedkey", "LicServer", "LicOnKey", "TotalKey"],
      ∀ c ∈ name.toList, isMark c = false ∧ 32 ≤ c.toNat := by decide
  exact hall

/-- The object of a key. -/
def keyRow (p : Parts) (slot used : Nat) (total : Text) : Json :=
  .obj [("KeyNumber".toList, .str p.KeyNumber), ("Slot".toList, .str (Nat.toDigits 10 slot)),
    ("Usedkey".toList, .str (Nat.toDigits 10 used)), ("LicServer".toList, .str p.LicServer),
    ("LicOnKey".toList, .str p.LicOnKey), ("TotalKey".toList, .str total)]

/-- Parts that are printed as they are. -/
structure Parts.Printable (p : Parts) : Prop where
  KeyNumber : Plain p.KeyNumber
  LicServer : Plain p.LicServer
  LicOnKey : Plain p.LicOnKey

theorem keyObject_eq (p : Parts) (slot used : Nat) (total : Text) : keyObject p slot used total =
    '\x7b' :: (' ' :: member "KeyNumber" p.KeyNumber ++ (' ' :: ',' ::
      (' ' :: member "Slot" (Nat.toDigits 10 slot) ++ (',' ::
      (' ' :: member "Usedkey" (Nat.toDigits 10 used) ++ (',' ::
      (' ' :: member "LicServer" p.LicServer ++ (',' ::
      (' ' :: member "LicOnKey" p.LicOnKey ++ (',' ::
      (' ' :: member "TotalKey" total ++ [' ', ' ', '\x7d']))))))))))) := by
  have hbegin : "\x7b ".toList = ['\x7b', ' '] := rfl
  have hspaced : " , ".toList = [' ', ',', ' '] := rfl
  have hcomma : ", ".toList = [',', ' '] := rfl
  have hend : "  \x7d".toList = [' ', ' ', '\x7d'] := rfl
  delta keyObject
  rw [hbegin, hspaced, hcomma, hend]
  simp only [List.append_assoc, List.cons_append, List.nil_append]

/-- What is printed of a key is a text of its object. -/
theorem isValue_keyObject {p : Parts} (hp : p.Printable) (slot used : Nat) {total : Text}
    (htotal : Plain total) : IsValue (keyRow p slot used total) (keyObject p slot used total) := by
  have hnames := plain_names
  simp only [List.forall_mem_cons] at hnames
  obtain ⟨hnumber, hslot, hused, hserver, honkey, htotalKey, -⟩ := hnames
  have hmembers := IsMembers.cons (isMember_member hnumber hp.KeyNumber) blank_space
    (IsMembers.cons (isMember_member hslot (plain_digits slot)) blank_nil
    (IsMembers.cons (isMember_member hused (plain_digits used)) blank_nil
    (IsMembers.cons (isMember_member hserver hp.LicServer) blank_nil
    (IsMembers.cons (isMember_member honkey hp.LicOnKey) blank_nil
    (IsMembers.last (isMember_member htotalKey htotal) (b := [' ', ' ']) (by decide))))))
  have hnodup : ["KeyNumber".toList, "Slot".toList, "Usedkey".toList, "LicServer".toList,
      "LicOnKey".toList, "TotalKey".toList].Nodup := by decide
  have hvalue : IsValue (.obj (members _)) _ := IsValue.obj hmembers
  rw [members_of_nodup (by exact hnodup)] at hvalue
  rw [keyObject_eq]
  simpa only [keyRow, List.append_assoc, List.cons_append, List.nil_append] using hvalue

/-! ## Slots from run to run -/

/-- What is printed of a presentation. -/
def printedParts (l : FullPresentation) : Parts :=
  ⟨l.key.number.text, trim l.server.text, l.key.usersAll.text⟩

/-- The objects of some presentations, numbered from `slot` on. -/
def keyRows (used : Text → Nat) (total : Text) (slot : Nat) (ks : List FullPresentation) :
    List Json :=
  (ks.zipIdx slot).map fun k => keyRow (printedParts k.1) k.2 (used k.1.text) total

section Run

variable {used : Text → Nat} {total : Text}

theorem keyLines_cons (count slot : Nat) (line : Text) (l : FullPresentation) (keys : List Text) :
    keyLines used total count (slot + 1) line (l.text :: keys) =
      (keyObject (printedParts l) slot (used l.text) total ++
        if slot + 1 < count then [','] else []) ::
      keyLines used total count (slot + 2) (keyObject (printedParts l) slot (used l.text) total ++
        if slot + 1 < count then [','] else []) keys := by
  rw [keyLines, parts_text, Option.map_some, Option.getD_some, Nat.add_sub_cancel]
  rfl

/-- The loop writes the objects of its keys, up to the bracket of the array. -/
theorem isItems_keyLines (htotal : Plain total) {count slot : Nat} {l : FullPresentation}
    {ks : List FullPresentation} (hprint : ∀ k ∈ l :: ks, (printedParts k).Printable)
    (hcount : slot + 1 + ks.length = count) (line : Text) {a : Text} (ha : Blank a) :
    IsItems (keyRows used total slot (l :: ks)) (a ++ (unlines (keyLines used total count (slot + 1)
      line ((l :: ks).map FullPresentation.text)) ++ ['\n', ' '])) := by
  induction ks generalizing slot l line a with
  | nil =>
    have hlast : ¬slot + 1 < count := by
      rw [List.length_nil] at hcount
      omega
    have hobject := isValue_keyObject (hprint l List.mem_cons_self) slot (used l.text) htotal
    have hitems := IsItems.last ha hobject (b := ['\n', '\n', ' ']) (by decide)
    rw [List.map_singleton, keyLines_cons, if_neg hlast, List.append_nil, keyLines]
    simpa only [keyRows, List.zipIdx_singleton, List.map_singleton, unlines, List.flatMap_cons,
      List.flatMap_nil, List.append_nil, List.append_assoc, List.cons_append,
      List.nil_append] using hitems
  | cons k ks ih =>
    have hcomma : slot + 1 < count := by
      rw [List.length_cons] at hcount
      omega
    have hobject := isValue_keyObject (hprint l List.mem_cons_self) slot (used l.text) htotal
    have hcount' : slot + 1 + 1 + ks.length = count := by
      rw [List.length_cons] at hcount
      omega
    have hrest := ih (fun k hk => hprint k (List.mem_cons_of_mem l hk)) hcount'
      (keyObject (printedParts l) slot (used l.text) total ++ [',']) (a := ['\n']) (by decide)
    have hitems := IsItems.cons ha hobject blank_nil hrest
    rw [List.map_cons, keyLines_cons, if_pos hcomma]
    simpa only [keyRows, List.zipIdx_cons, List.map_cons, unlines, List.flatMap_cons,
      List.append_assoc, List.cons_append, List.nil_append] using hitems

end Run

/-- The presentations behind texts that are all in one of the layouts. -/
theorem exists_presentations {keys : List Text}
    (h : ∀ key ∈ keys, ∃ l : FullPresentation, l.text = key ∧ (printedParts l).Printable) :
    ∃ ks : List FullPresentation,
      ks.map FullPresentation.text = keys ∧ ∀ k ∈ ks, (printedParts k).Printable := by
  induction keys with
  | nil => exact ⟨[], rfl, fun k hk => absurd hk List.not_mem_nil⟩
  | cons key keys ih =>
    obtain ⟨⟨l, rfl, hl⟩, hkeys⟩ := List.forall_mem_cons.mp h
    obtain ⟨ks, rfl, hks⟩ := ih hkeys
    exact ⟨l :: ks, rfl, List.forall_mem_cons.mpr ⟨hl, hks⟩⟩

section Slots

variable [Culture] (E : Engine) {le : Text → Text → Bool} {ls ls' : List Text}

/-- Keys that can be printed are read as they are; there may be none. -/
theorem loads_licenseKeys {ks : List FullPresentation}
    (hkeys : lickeys le ls = ks.map FullPresentation.text)
    (hprint : ∀ k ∈ ks, (printedParts k).Printable) :
    loads (unlines (licenseKeys E le ls)) =
      some (.arr (keyRows (uses E ls) (totalKey ls) 0 ks)) := by
  have hblank : Blank ['\n'] := by decide
  have hbracket : " ]".toList = [' ', ']'] := rfl
  have hopening : "[\n".toList = ['[', '\n'] := rfl
  have harray : IsValue (.arr (keyRows (uses E ls) (totalKey ls) 0 ks)) ('[' :: ((['\n', '\n'] ++
      (unlines (keyLines (uses E ls) (totalKey ls) ks.length 1 []
        (ks.map FullPresentation.text)) ++ ['\n', ' '])) ++ [']'])) := by
    cases ks with
    | nil => exact IsValue.noItems (w := ['\n', '\n', '\n', ' ']) (by decide)
    | cons k ks =>
      apply IsValue.arr
      exact isItems_keyLines (plain_totalKey ls) hprint (by rw [List.length_cons]; omega) []
        (by decide)
  have hloads := loads_of_isValue harray blank_nil hblank
  rw [licenseKeys, hkeys, hopening, hbracket, List.length_map]
  simpa only [unlines, List.flatMap_append, List.flatMap_cons, List.flatMap_nil, List.append_assoc,
    List.cons_append, List.nil_append] using hloads

/-- Two listings that show the same presentations, in any order and number, have documents with
the same keys in the same slots. Every presentation has one slot; the great ones come first. -/
theorem slots_of_presentations (h : Comparison le) (hapart : Apart le ls)
    (hlayout : ∀ key ∈ ls.filterMap lickey,
      ∃ l : FullPresentation, l.text = key ∧ (printedParts l).Printable)
    (hsame : ∀ key, key ∈ ls'.filterMap lickey ↔ key ∈ ls.filterMap lickey) :
    ∃ ks : List FullPresentation,
      (ks.map FullPresentation.text).Pairwise (fun s t => le s t = false) ∧
      (∀ key, key ∈ ks.map FullPresentation.text ↔ key ∈ ls.filterMap lickey) ∧
      loads (unlines (licenseKeys E le ls)) =
        some (.arr (keyRows (uses E ls) (totalKey ls) 0 ks)) ∧
      loads (unlines (licenseKeys E le ls')) =
        some (.arr (keyRows (uses E ls') (totalKey ls') 0 ks)) := by
  have htexts : ∀ key ∈ lickeys le ls,
      ∃ l : FullPresentation, l.text = key ∧ (printedParts l).Printable :=
    fun key hkey => hlayout key ((mem_lickeys h hapart).mp hkey)
  obtain ⟨ks, hks, hprint⟩ := exists_presentations htexts
  have hks' : lickeys le ls' = ks.map FullPresentation.text :=
    (lickeys_eq h hapart hsame).trans hks.symm
  refine ⟨ks, ?_, fun key => ?_, loads_licenseKeys E hks.symm hprint,
    loads_licenseKeys E hks' hprint⟩
  · rw [hks]
    exact h.flip.pairwise_sortUnique _
  · rw [hks]
    exact mem_lickeys h hapart

end Slots

theorem slots_of_presentations_keys : letI := Culture.ascii
    let ls := [firstKey, secondKey].map FullPresentation.line
    let ls' := [secondKey, firstKey, secondKey].map FullPresentation.line
    ∃ ks : List FullPresentation, ks.length = 2 ∧
      loads (unlines (licenseKeys Engine.core ordinal ls)) =
        some (.arr (keyRows (uses Engine.core ls) (totalKey ls) 0 ks)) ∧
      loads (unlines (licenseKeys Engine.core ordinal ls')) =
        some (.arr (keyRows (uses Engine.core ls') (totalKey ls') 0 ks)) := by
  let _ := Culture.ascii
  have hprint : ∀ k ∈ [firstKey, secondKey], (printedParts k).Printable := by
    have hplain : ∀ k ∈ [firstKey, secondKey], ∀ t ∈ [(printedParts k).KeyNumber,
        (printedParts k).LicServer, (printedParts k).LicOnKey],
          ∀ c ∈ t, isMark c = false ∧ 32 ≤ c.toNat := by decide +kernel
    intro k hk
    have hall := hplain k hk
    simp only [List.forall_mem_cons] at hall
    exact ⟨hall.1, hall.2.1, hall.2.2.1⟩
  have hlayout : ∀ key ∈ ([firstKey, secondKey].map FullPresentation.line).filterMap lickey,
      ∃ l : FullPresentation, l.text = key ∧ (printedParts l).Printable := by
    intro key hkey
    rw [filterMap_lickey] at hkey
    obtain ⟨k, hk, rfl⟩ := List.mem_map.mp hkey
    exact ⟨k, rfl, hprint k hk⟩
  have hsame : ∀ key,
      key ∈ ([secondKey, firstKey, secondKey].map FullPresentation.line).filterMap lickey ↔
        key ∈ ([firstKey, secondKey].map FullPresentation.line).filterMap lickey := by
    intro key
    rw [filterMap_lickey, filterMap_lickey]
    simp only [List.map_cons, List.map_nil, List.mem_cons, List.not_mem_nil, or_false]
    exact or_iff_right_of_imp Or.inr
  obtain ⟨ks, hpairwise, hmem, hloads, hloads'⟩ :=
    slots_of_presentations Engine.core comparison_ordinal apart_ordinal hlayout hsame
  refine ⟨ks, ?_, hloads, hloads'⟩
  have hnodup : (ks.map FullPresentation.text).Nodup :=
    hpairwise.imp fun hst heq => by
      rw [heq, comparison_ordinal.refl] at hst
      cases hst
  have hkeys : ([firstKey, secondKey].map FullPresentation.text).Nodup := by decide +kernel
  have hperm := (List.perm_ext_iff_of_nodup hnodup hkeys).mpr fun key => by
    rw [hmem, filterMap_lickey]
  rw [← List.length_map FullPresentation.text, hperm.length_eq]
  rfl

/-! ## The number of uses -/

section Uses

variable [Culture] (E : Engine) {le : Text → Text → Bool} {ls : List Text}

/-- The key stands in a line, without case and with any letter at a dot. -/
def Occurs (key line : Text) : Prop :=
  ∃ u, u <:+: line ∧ List.Forall₂ (fun x y => Regex.dotEq (letterEq true) x y = true) key u

/-- A key of letters and dots matches the lines in which it stands. -/
theorem match_iff {key : Text} (hdots : Regex.WithDots key) (line : Text) :
    ((E.compile true key).getD fun _ => false) line = true ↔ Occurs key line := by
  rw [E.compile_pattern true key _ (Regex.parse_withDots _ hdots), Option.getD_some,
    Regex.isMatch_literal, Occurs]

omit [Culture] in
theorem suffix_of_afterColon {line t : Text} (h : afterColon line = some t) : t <:+ line := by
  induction line with
  | nil => cases h
  | cons x line ih =>
    rw [afterColon] at h
    split_ifs at h with hx
    · rw [← Option.some.inj h]
      exact (List.tail_suffix line).trans (List.suffix_cons x line)
    · exact (ih h).trans (List.suffix_cons x line)

/-- A key stands in its own lines. -/
theorem occurs_of_lickey {key line : Text} (h : lickey line = some key) : Occurs key line := by
  have hrefl : ∀ x, Regex.dotEq (letterEq true) x x = true := by
    intro x
    rw [Regex.dotEq]
    split_ifs with hx
    · rw [hx]
      rfl
    · rw [letterEq, if_pos rfl, beq_self_eq_true]
  refine ⟨key, ?_, List.forall₂_same.mpr fun x _ => hrefl x⟩
  rw [lickey] at h
  split_ifs at h
  rw [← Option.some.inj h, stripKey]
  cases hcolon : afterColon line with
  | none => exact List.infix_rfl
  | some t => exact (suffix_of_afterColon hcolon).isInfix

/-- Every line of a key is counted, and exactly those if it stands in no other line. -/
theorem count_le_uses {key : Text} (hdots : Regex.WithDots key) :
    (ls.filterMap lickey).count key ≤ uses E ls key ∧
      (uses E ls key = (ls.filterMap lickey).count key ↔
        ∀ line ∈ ls, Occurs key line → lickey line = some key) := by
  have hown : ∀ line ∈ ls, (lickey line == some key) = true →
      ((E.compile true key).getD fun _ => false) line = true := by
    intro line _ hline
    exact (match_iff E hdots line).mpr (occurs_of_lickey (beq_iff_eq.mp hline))
  rw [List.count_filterMap, uses, countP_eq_iff hown]
  refine ⟨List.countP_mono_left hown, ?_⟩
  simp only [match_iff E hdots, beq_iff_eq]

end Uses

end OpsScripts.OneC.Windows
