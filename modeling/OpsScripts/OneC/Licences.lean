import Mathlib.Algebra.BigOperators.Group.Finset.Basic
import Mathlib.Algebra.GroupWithZero.Nat
import OpsScripts.Core.PythonRegex
import OpsScripts.OneC.Report

/-!
# The licence keys

The mode `LicenseKeys` takes the text behind `full-presentation  :` from every line of
the session listing, keeps the first of equal texts, and prints one object for each of
those that are left. The object has parts of the text, its slot, and the number of times
that the text, as a regular expression, finds itself in the whole listing.
-/

namespace OpsScripts.OneC

/-! ## White space of Python -/

/-- `str.isspace`: also the four separators of information. -/
def isPySpace (c : Char) : Bool := isSpace c || (0x1c ≤ c.toNat && c.toNat ≤ 0x1f)

/-- `t.strip()`. -/
def strip (t : Text) : Text :=
  ((t.dropWhile isPySpace).reverse.dropWhile isPySpace).reverse

/-- `t.split()`. -/
def splitWords (t : Text) : List Text := (t.splitOnP isPySpace).filter fun word => !word.isEmpty

/-! ## Parts of a presentation -/

/-- `t.split(sep)[i]`. -/
def piece (sep : Char) (i : Nat) (t : Text) : Option Text := (t.splitOn sep)[i]?

/-- `element.split(",")[i].split(" ")[j].strip()`. -/
def item (i j : Nat) (element : Text) : Option Text :=
  ((piece ',' i element).bind (piece ' ' j)).map strip

/-- Where the server and the key stand: a short presentation has fewer than eight words. -/
structure Places where
  server : Nat
  key : Nat

/-- The two layouts. -/
def places (element : Text) : Places :=
  if (splitWords element).length < 8 then ⟨0, 2⟩ else ⟨2, 4⟩

/-- The parts of a presentation that are printed. -/
structure Parts where
  Keypid : Text
  KeyNumber : Text
  LicServer : Text
  LicOnKey : Text

/-- The parts of a presentation; a part that is missing is an error. -/
def parts (element : Text) : Option Parts := do
  let at_ := places element
  let Keypid ← item 1 1 element
  let KeyNumber ← item at_.key 1 element
  let LicServer ← piece ',' at_.server element
  let LicOnKey ← item at_.key 3 element
  some ⟨Keypid, KeyNumber, strip (LicServer.filter fun x => x != '"'), LicOnKey⟩

/-! ## The mode -/

/-- What stands in front of a presentation. -/
def fullPresentation : Text := "full-presentation  :".toList

/-- The path of the licence files. -/
def licensePath : Text := "file://C:/ProgramData/1C/licenses".toList

theorem parse_fullPresentation :
    Regex.parse (fun x y => x == y) "full-presentation  :(.*)".toList =
      .pattern (Regex.following fullPresentation) := rfl

/-- `re.findall(re.compile('full-presentation  :(.*)'),licenseqery)`. -/
def alllic (licenseqery : Text) : List Text :=
  (Regex.findall (Regex.following fullPresentation) licenseqery).map fun c => c.text 1

/-- The loop that fills `temp`. -/
def firstSeen (alllic : List Text) : List Text :=
  alllic.foldl (fun temp x => if x ∈ temp then temp else temp ++ [x]) []

/-- `round(n/2)`: a half goes to the even neighbour. -/
def roundHalf (n : Nat) : Nat := if n % 4 = 3 then n / 2 + 1 else n / 2

/-- What is printed of a presentation. -/
structure Licence extends Parts where
  Usedkey : Nat

/-- The members of the object of a licence. -/
def Licence.members (licence : Licence) (idx liccount : Nat) : List (Text × Json) :=
  [("Keypid".toList, .str licence.Keypid), ("KeyNumber".toList, .str licence.KeyNumber),
    ("Slot".toList, .num idx), ("Usedkey".toList, .num licence.Usedkey),
    ("LicServer".toList, .str licence.LicServer), ("LicOnKey".toList, .str licence.LicOnKey),
    ("TotalKey".toList, .num liccount)]

/-- The object of a licence. -/
def Licence.json (licence : Licence) (idx liccount : Nat) : Json :=
  .obj (licence.members idx liccount)

variable (E : PyRe)

/-- The body of the loop up to the object: the text is searched for in the listing. -/
def licence (licenseqery element : Text) : Option Licence := do
  let p ← parts element
  let Usedkey ← E.count element licenseqery
  some ⟨p, Usedkey⟩

/-- The objects; the loop runs over the texts as they were found, not over the sorted list. -/
def licences (licenseqery : Text) : Option (List Json) := do
  let liccount := roundHalf (← E.count licensePath licenseqery)
  (firstSeen (alllic licenseqery)).zipIdx.mapM fun p =>
    (licence E licenseqery p.1).map fun licence => licence.json p.2 liccount

/-- The text that the mode prints; an exception leaves nothing printed. -/
def licenseKeys (licenseqery : Text) : Option Text := (licences E licenseqery).map report

/-! ## Lines with presentations -/

/-- The presentation of a line. -/
def presentation (line : Text) : Option Text := behind fullPresentation line

/-- The presentations of a listing. -/
def presentations (ls : List Text) : List Text := ls.filterMap presentation

theorem alllic_unlines {ls : List Text} (hls : ∀ l ∈ ls, '\n' ∉ l) :
    alllic (unlines ls) = presentations ls :=
  Regex.findall_following_unlines (by decide) (by decide) hls

theorem newline_notMem_of_presentation {l p : Text} (hl : '\n' ∉ l) (h : presentation l = some p) :
    '\n' ∉ p :=
  fun hp => hl ((suffix_of_behind h).subset (List.mem_append_right _ hp))

/-- No part is found in a text without separators. -/
theorem ne_nil_of_parts {p : Text} (h : (parts p).isSome) : p ≠ [] := by
  rintro rfl
  cases h

/-! ## The first of equal texts -/

theorem foldl_firstSeen (xs temp : List Text) (hnodup : temp.Nodup) :
    (xs.foldl (fun temp x => if x ∈ temp then temp else temp ++ [x]) temp).Nodup ∧
      (∀ x, x ∈ xs.foldl (fun temp x => if x ∈ temp then temp else temp ++ [x]) temp ↔
        x ∈ temp ∨ x ∈ xs) ∧
      temp <+: xs.foldl (fun temp x => if x ∈ temp then temp else temp ++ [x]) temp := by
  induction xs generalizing temp with
  | nil => simp [hnodup]
  | cons y xs ih =>
    rw [List.foldl_cons]
    split_ifs with hy
    · obtain ⟨hn, hmem, hprefix⟩ := ih temp hnodup
      refine ⟨hn, fun x => ?_, hprefix⟩
      rw [hmem, List.mem_cons]
      constructor
      · rintro (h | h)
        · exact Or.inl h
        · exact Or.inr (Or.inr h)
      · rintro (h | rfl | h)
        · exact Or.inl h
        · exact Or.inl hy
        · exact Or.inr h
    · have hnodup' : (temp ++ [y]).Nodup := by
        rw [← List.concat_eq_append]
        exact hnodup.concat hy
      obtain ⟨hn, hmem, hprefix⟩ := ih (temp ++ [y]) hnodup'
      refine ⟨hn, fun x => ?_, (List.prefix_append temp [y]).trans hprefix⟩
      rw [hmem, List.mem_append, List.mem_singleton, List.mem_cons, or_assoc]

theorem nodup_firstSeen (xs : List Text) : (firstSeen xs).Nodup :=
  (foldl_firstSeen xs [] List.nodup_nil).1

@[simp] theorem mem_firstSeen {xs : List Text} {x : Text} : x ∈ firstSeen xs ↔ x ∈ xs := by
  rw [firstSeen, (foldl_firstSeen xs [] List.nodup_nil).2.1]
  simp

/-- The first text stays the first one. -/
theorem head?_firstSeen (xs : List Text) : (firstSeen xs).head? = xs.head? := by
  cases xs with
  | nil => rfl
  | cons x xs =>
    obtain ⟨t, ht⟩ := (foldl_firstSeen xs [x] (List.nodup_singleton x)).2.2
    have hfirst : firstSeen (x :: xs) = [x] ++ t := ht.symm
    rw [hfirst]
    rfl

/-- Lists with the same members keep the same number of texts. -/
theorem length_firstSeen_of_perm {xs ys : List Text} (h : xs.Perm ys) :
    (firstSeen xs).length = (firstSeen ys).length := by
  apply List.Perm.length_eq
  rw [List.perm_ext_iff_of_nodup (nodup_firstSeen xs) (nodup_firstSeen ys)]
  intro x
  rw [mem_firstSeen, mem_firstSeen, h.mem_iff]

/-- The texts of a list, counted kind by kind. -/
theorem sum_count_firstSeen (xs : List Text) :
    ((firstSeen xs).map fun x => xs.count x).sum = xs.length := by
  have hperm : (firstSeen xs).Perm xs.dedup := by
    rw [List.perm_ext_iff_of_nodup (nodup_firstSeen xs) xs.nodup_dedup]
    intro x
    rw [mem_firstSeen, List.mem_dedup]
  have hcount : ∀ x, xs.count x = @List.count Text instBEqOfDecidableEq x xs := by
    intro x
    congr 1
    exact lawful_beq_subsingleton _ _
  simp only [hcount]
  rw [(hperm.map _).sum_eq, List.sum_map_count_dedup_eq_length]

/-! ## The objects -/

theorem nodup_members (licence : Licence) (idx liccount : Nat) :
    ((licence.members idx liccount).map Prod.fst).Nodup := by
  change ["Keypid".toList, "KeyNumber".toList, "Slot".toList, "Usedkey".toList,
    "LicServer".toList, "LicOnKey".toList, "TotalKey".toList].Nodup
  decide +kernel

/-- What is read from the object of a licence. -/
theorem Licence.get_json {licence : Licence} {idx liccount : Nat} {k : Text} {v : Json}
    (h : (k, v) ∈ licence.members idx liccount) :
    (licence.json idx liccount).sortKeys.get k = some v.sortKeys := by
  have hnodup := nodup_members licence idx liccount
  rw [Licence.json, Json.get_sortKeys hnodup, Json.get_eq_some_of_mem hnodup h, Option.map_some]

/-- The object of a licence shows the whole licence. -/
theorem Licence.eq_of_json {a b : Licence} {i j m n : Nat}
    (h : (a.json i m).sortKeys = (b.json j n).sortKeys) : a = b := by
  have hvalue : ∀ (x : Nat) {k : Text} {v w : Json}, (a.members i m)[x]? = some (k, v) →
      (b.members j n)[x]? = some (k, w) → v.sortKeys = w.sortKeys := by
    intro x k v w hv hw
    have hget := Licence.get_json (List.mem_of_getElem? hv)
    rw [h, Licence.get_json (List.mem_of_getElem? hw)] at hget
    exact (Option.some.inj hget).symm
  have hpid : Json.sortKeys (.str a.Keypid) = Json.sortKeys (.str b.Keypid) := hvalue 0 rfl rfl
  have hnumber : Json.sortKeys (.str a.KeyNumber) = Json.sortKeys (.str b.KeyNumber) :=
    hvalue 1 rfl rfl
  have hused : Json.sortKeys (.num a.Usedkey) = Json.sortKeys (.num b.Usedkey) := hvalue 3 rfl rfl
  have hserver : Json.sortKeys (.str a.LicServer) = Json.sortKeys (.str b.LicServer) :=
    hvalue 4 rfl rfl
  have hkey : Json.sortKeys (.str a.LicOnKey) = Json.sortKeys (.str b.LicOnKey) := hvalue 5 rfl rfl
  obtain ⟨⟨_, _, _, _⟩, _⟩ := a
  obtain ⟨⟨_, _, _, _⟩, _⟩ := b
  simp only [Json.sortKeys, Json.str.injEq, Json.num.injEq] at hpid hnumber hused hserver hkey
  simp only [hpid, hnumber, hused, hserver, hkey]

/-- The objects of numbered licences. -/
def jsons (liccount : Nat) (numbered : List (Licence × Nat)) : List Json :=
  numbered.map fun p => p.1.json p.2 liccount

theorem allKeysItems_jsons {Q : List Text → Prop}
    (hQ : Q ["Keypid".toList, "KeyNumber".toList, "Slot".toList, "Usedkey".toList,
      "LicServer".toList, "LicOnKey".toList, "TotalKey".toList]) (liccount : Nat)
    (numbered : List (Licence × Nat)) : Json.AllKeysItems Q (jsons liccount numbered) := by
  induction numbered with
  | nil => trivial
  | cons p numbered ih =>
    exact ⟨⟨hQ, trivial, trivial, trivial, trivial, trivial, trivial, trivial, trivial⟩, ih⟩

/-- The printed text is read back as the array of the objects. -/
theorem loads_report_jsons {liccount : Nat} {numbered : List (Licence × Nat)}
    (hne : numbered ≠ []) : Json.loads (report (jsons liccount numbered)) =
      some (.arr (numbered.map fun p => (p.1.json p.2 liccount).sortKeys)) := by
  have hplain : (["Keypid", "KeyNumber", "Slot", "Usedkey", "LicServer", "LicOnKey",
      "TotalKey"].map String.toList).all plainKey = true := by decide +kernel
  have hjsons : jsons liccount numbered ≠ [] := fun h => hne (List.map_eq_nil_iff.mp h)
  rw [loads_report hjsons, Json.sortItems_eq_map, jsons, List.map_map]
  · rfl
  · exact allKeysItems_jsons (fun k hk => List.all_eq_true.mp hplain k hk) _ _
  · exact allKeysItems_jsons (by decide +kernel) _ _

/-! ## What the mode returns -/

variable {E}

theorem licence_eq_none_iff {licenseqery p : Text} : licence E licenseqery p = none ↔
    parts p = none ∨ E.count p licenseqery = none := by
  unfold licence
  cases parts p <;> cases E.count p licenseqery <;> simp

theorem licence_eq_some_iff {licenseqery p : Text} {d : Licence} :
    licence E licenseqery p = some d ↔
      parts p = some d.toParts ∧ E.count p licenseqery = some d.Usedkey := by
  obtain ⟨q, n⟩ := d
  unfold licence
  cases parts p <;> cases E.count p licenseqery <;> simp

/-- A loop with a pass that fails fails. -/
theorem mapM_eq_none {α β : Type} {f : α → Option β} {xs : List α} {x : α} (hx : x ∈ xs)
    (h : f x = none) : xs.mapM f = none := by
  induction xs with
  | nil => cases hx
  | cons y xs ih =>
    rw [List.mapM_cons]
    rcases List.mem_cons.mp hx with rfl | hx
    · rw [h]
      rfl
    · rw [ih hx]
      cases f y <;> rfl

/-- The path of the licence files is counted. -/
theorem exists_count_licensePath (licenseqery : Text) :
    ∃ n, E.count licensePath licenseqery = some n := by
  have hdots : Regex.WithDots licensePath := by decide +kernel
  rw [PyRe.count, E.findall_pattern _ _ _ (Regex.proper_literal _ _)
    (Regex.parsePython_withDots hdots)]
  exact ⟨_, rfl⟩

/-- The objects of a listing whose presentations are all read. -/
theorem licences_eq_some {licenseqery : Text} {n : Nat} {f : Text → Licence}
    (hn : E.count licensePath licenseqery = some n)
    (h : ∀ p ∈ alllic licenseqery, licence E licenseqery p = some (f p)) :
    licences E licenseqery = some (jsons (roundHalf n)
      ((firstSeen (alllic licenseqery)).zipIdx.map fun p => (f p.1, p.2))) := by
  have hpass : ∀ p ∈ (firstSeen (alllic licenseqery)).zipIdx,
      ((licence E licenseqery p.1).map fun licence => licence.json p.2 (roundHalf n)) =
        some ((f p.1).json p.2 (roundHalf n)) := by
    intro p hp
    rw [h p.1 (mem_firstSeen.mp (List.fst_mem_of_mem_zipIdx hp)), Option.map_some]
  rw [licences, hn, Option.bind_eq_bind, Option.bind_some, mapM_eq_some_map hpass, jsons,
    List.map_map]
  rfl

/-- A presentation that cannot be read ends the mode. -/
theorem licences_eq_none {licenseqery p : Text} (hp : p ∈ alllic licenseqery)
    (h : licence E licenseqery p = none) : licences E licenseqery = none := by
  obtain ⟨n, hn⟩ := exists_count_licensePath (E := E) licenseqery
  obtain ⟨i, hi⟩ := List.mem_iff_getElem?.mp (mem_firstSeen.mpr hp)
  rw [licences, hn, Option.bind_eq_bind, Option.bind_some]
  exact mapM_eq_none (List.mk_mem_zipIdx_iff_getElem?.mpr hi) (by rw [h, Option.map_none])

end OpsScripts.OneC
