import Mathlib.Data.List.DropRight
import OpsScripts.Core.Text

/-!
# Words and lines of the shell

What a shell does with a text that passes through it: an expansion without quotation marks is
split into words, `echo` joins words to a line, `read` takes a line and looks at its backslashes
and blanks. None of them adds a character, and what they take away is described exactly.
-/

namespace OpsScripts.Shell

/-! ## Words -/

/-- The characters of `IFS`. -/
def isBlank (c : Char) : Bool := c == ' ' || c == '\t' || c == '\n'

/-- The words of an expansion without quotation marks. -/
def words (t : Text) : List Text := (t.splitOnP isBlank).filter fun w => !w.isEmpty

/-- A blank separates words. -/
theorem words_append_cons (s t : Text) {c : Char} (hc : isBlank c = true) :
    words (s ++ c :: t) = words s ++ words t := by
  rw [words, List.splitOnP_append_cons s t hc, List.filter_append, words, words]

@[simp] theorem words_nil : words [] = [] := by
  rw [words, List.splitOnP_nil]
  rfl

/-- A text without blanks is a word. -/
theorem words_of_plain {t : Text} (hne : t ≠ []) (h : ∀ c ∈ t, isBlank c = false) :
    words t = [t] := by
  rw [words, List.splitOnP_eq_singleton h]
  cases t with
  | nil => exact absurd rfl hne
  | cons c t => rfl

/-- A text has no blanks, or splits at its first one. -/
theorem blank_cases (t : Text) : (∀ c ∈ t, isBlank c = false) ∨
    ∃ s c u, t = s ++ c :: u ∧ isBlank c = true ∧ ∀ c ∈ s, isBlank c = false := by
  induction t with
  | nil => exact Or.inl fun c hc => nomatch hc
  | cons c t ih =>
    cases hc : isBlank c with
    | true => exact Or.inr ⟨[], c, t, rfl, hc, fun c hc => nomatch hc⟩
    | false =>
      rcases ih with h | ⟨s, d, u, rfl, hd, hs⟩
      · exact Or.inl (List.forall_mem_cons.mpr ⟨hc, h⟩)
      · exact Or.inr ⟨c :: s, d, u, rfl, hd, List.forall_mem_cons.mpr ⟨hc, hs⟩⟩

/-- Induction over the words of a text. -/
theorem blank_induction {motive : Text → Prop}
    (plain : ∀ t, (∀ c ∈ t, isBlank c = false) → motive t)
    (cons : ∀ s c u, isBlank c = true → (∀ c ∈ s, isBlank c = false) → motive u →
      motive (s ++ c :: u)) (t : Text) : motive t := by
  induction hn : t.length using Nat.strong_induction_on generalizing t with
  | _ n ih =>
    rcases blank_cases t with h | ⟨s, c, u, rfl, hc, hs⟩
    · exact plain t h
    · refine cons s c u hc hs (ih u.length ?_ u rfl)
      rw [← hn, List.length_append, List.length_cons]
      omega

/-- The words are what is left without the blanks. -/
theorem flatten_words (t : Text) : (words t).flatten = t.filter fun c => !isBlank c := by
  have hplain : ∀ {s : Text}, (∀ c ∈ s, isBlank c = false) →
      (words s).flatten = s.filter fun c => !isBlank c := by
    intro s hs
    have hkeep : s.filter (fun c => !isBlank c) = s := by
      rw [List.filter_eq_self]
      exact fun c hc => by rw [hs c hc]; rfl
    cases s with
    | nil => rfl
    | cons c s => rw [words_of_plain (List.cons_ne_nil c s) hs, hkeep, List.flatten_singleton]
  induction t using blank_induction with
  | plain t h => exact hplain h
  | cons s c u hc hs ih =>
    rw [words_append_cons s u hc, List.flatten_append, ih, hplain hs, List.filter_append,
      List.filter_cons, hc]
    rfl

/-- A word is not empty and has no blanks. -/
theorem plain_of_mem_words {t w : Text} (h : w ∈ words t) :
    w ≠ [] ∧ ∀ c ∈ w, isBlank c = false := by
  constructor
  · rintro rfl
    simp [words] at h
  · intro c hc
    have hmem : c ∈ (words t).flatten := List.mem_flatten.mpr ⟨w, h, hc⟩
    rw [flatten_words, List.mem_filter, Bool.not_eq_true'] at hmem
    exact hmem.2

/-- Only blanks have no words. -/
theorem words_eq_nil_iff {t : Text} : words t = [] ↔ ∀ c ∈ t, isBlank c = true := by
  have hempty : words t = [] ↔ (words t).flatten = [] := by
    rw [List.flatten_eq_nil_iff, List.eq_nil_iff_forall_not_mem]
    exact forall₂_congr fun w hw => ⟨fun h => h.elim, fun h => (plain_of_mem_words hw).1 h⟩
  rw [hempty, flatten_words, List.filter_eq_nil_iff]
  simp

/-! ## Lines -/

/-- The lines of a text; what stands behind the last line break is a line if it is not empty. -/
def linesOf (t : Text) : List Text :=
  if (t.splitOn '\n').getLast? = some [] then (t.splitOn '\n').dropLast else t.splitOn '\n'

/-- `$(…)`: line breaks at the end are removed. -/
def substitution (t : Text) : Text := t.rdropWhile (· == '\n')

/-- `tr ' ' '\n'`. -/
def trBlanks (t : Text) : Text := t.map fun c => if c = ' ' then '\n' else c

/-- Line breaks at the end do not count for the words. -/
theorem words_substitution (t : Text) : words (substitution t) = words t := by
  induction t using List.reverseRecOn with
  | nil => rfl
  | append_singleton t c ih =>
    by_cases hc : c = '\n'
    · subst hc
      rw [words_append_cons t [] rfl, words_nil, List.append_nil, ← ih, substitution,
        List.rdropWhile_concat_pos _ _ _ (by rfl), substitution]
    · rw [substitution, List.rdropWhile_concat_neg _ _ _ (by simpa using hc)]

/-- `$(…)` of a command that prints some lines. -/
def capture (ls : List Text) : Text := substitution (ls.flatMap fun l => l ++ ['\n'])

/-- The words of what is captured are those of the lines. -/
theorem words_capture (ls : List Text) : words (capture ls) = ls.flatMap words := by
  rw [capture, words_substitution]
  induction ls with
  | nil => exact words_nil
  | cons l ls ih =>
    rw [List.flatMap_cons, List.append_assoc, List.singleton_append, words_append_cons _ _ rfl, ih,
      List.flatMap_cons]

/-- The lines of a text have all characters but the line breaks. -/
theorem flatten_linesOf (t : Text) : (linesOf t).flatten = t.filter fun c => c != '\n' := by
  have hplain : ∀ {s : Text}, '\n' ∉ s → s.filter (fun c => c != '\n') = s := by
    intro s hs
    rw [List.filter_eq_self]
    intro c hc
    rw [bne_iff_ne]
    rintro rfl
    exact hs hc
  have hsplit : (t.splitOn '\n').flatten = t.filter fun c => c != '\n' := by
    induction t using pieces_induction '\n' with
    | last t h => rw [List.splitOn_eq_singleton h, List.flatten_singleton, hplain h]
    | cons s u hs ih =>
      rw [List.splitOn_append_cons_self, List.splitOn_eq_singleton hs, List.flatten_append, ih,
        List.flatten_singleton, List.filter_append, List.filter_cons, hplain hs]
      rfl
  rw [← hsplit, linesOf]
  split_ifs with hlast
  · obtain ⟨ls, hls⟩ := List.getLast?_eq_some_iff.mp hlast
    rw [hls, List.dropLast_concat, List.flatten_append, List.flatten_singleton, List.append_nil]
  · rfl

/-- Words joined by blanks become lines. -/
theorem linesOf_trBlanks_join {ws : List Text} (hne : ws ≠ [])
    (h : ∀ w ∈ ws, ∀ c ∈ w, isBlank c = false) :
    linesOf (trBlanks ([' '].intercalate ws ++ ['\n'])) = ws := by
  have hkeep : ∀ w ∈ ws, trBlanks w = w ∧ '\n' ∉ w := by
    intro w hw
    have hw := h w hw
    constructor
    · refine (List.map_congr_left fun c hc => ?_).trans (List.map_id w)
      refine if_neg ?_
      rintro rfl
      exact absurd (hw _ hc) (by decide)
    · exact fun hc => absurd (hw _ hc) (by decide)
  have hjoin : trBlanks ([' '].intercalate ws ++ ['\n']) = ['\n'].intercalate (ws ++ [[]]) := by
    clear h
    induction ws with
    | nil => exact absurd rfl hne
    | cons w ws ih =>
      obtain ⟨hw, -⟩ := hkeep w List.mem_cons_self
      cases ws with
      | nil =>
        rw [List.intercalate_singleton, trBlanks, List.map_append, ← trBlanks, hw]
        rfl
      | cons w' ws =>
        have hrest := ih (List.cons_ne_nil w' ws) fun v hv => hkeep v (List.mem_cons_of_mem w hv)
        rw [List.intercalate_cons_cons, List.append_assoc, List.append_assoc, trBlanks,
          List.map_append, List.map_append, ← trBlanks, ← trBlanks, ← trBlanks, hw, hrest]
        exact (List.intercalate_cons_cons.trans (List.append_assoc w ['\n'] _)).symm
  have hnot : ∀ l ∈ ws ++ [[]], '\n' ∉ l := by
    intro l hl
    rcases List.mem_append.mp hl with hl | hl
    · exact (hkeep l hl).2
    · rw [List.mem_singleton.mp hl]
      exact List.not_mem_nil
  rw [linesOf, hjoin, List.splitOn_intercalate '\n' hnot (by simp), List.getLast?_concat,
    if_pos rfl, List.dropLast_concat]

/-! ## `echo` -/

/-- A word that `echo` takes for options. -/
def isOption : Text → Bool
  | '-' :: c :: cs => (c :: cs).all fun x => x == 'n' || x == 'e' || x == 'E'
  | _ => false

/-- The line break that the option `-n` leaves out. -/
def ending (options : Text) : Text := if 'n' ∈ options then [] else ['\n']

/-- `echo`, where `escapes` is what the option `-e` does with the backslashes. -/
def echo (escapes : Text → Text) (args : List Text) : Text :=
  let options := (args.takeWhile isOption).flatten
  let line := [' '].intercalate (args.dropWhile isOption) ++ ending options
  if (options.filter fun c => c == 'e' || c == 'E').getLast? = some 'e' then escapes line else line

/-- Without options the words are a line. -/
theorem echo_of_plain (escapes : Text → Text) {args : List Text}
    (h : ∀ w ∈ args.head?, isOption w = false) :
    echo escapes args = [' '].intercalate args ++ ['\n'] := by
  have hnone : args.takeWhile isOption = [] ∧ args.dropWhile isOption = args := by
    cases args with
    | nil => exact ⟨rfl, rfl⟩
    | cons w ws =>
      have hw : isOption w = false := h w rfl
      rw [List.takeWhile_cons, List.dropWhile_cons, hw]
      exact ⟨rfl, rfl⟩
  rw [echo, hnone.1, hnone.2]
  rfl

/-- Characters other than blanks and line breaks come from the words behind the options. -/
theorem countP_join {p : Char → Bool} (hp : p ' ' = false) (ws : List Text) :
    ([' '].intercalate ws).countP p = ws.flatten.countP p := by
  induction ws with
  | nil => rfl
  | cons w ws ih =>
    cases ws with
    | nil => rw [List.intercalate_singleton, List.flatten_singleton]
    | cons w' ws =>
      rw [List.intercalate_cons_cons, List.countP_append, List.countP_append, ih,
        List.countP_singleton, hp, List.flatten_cons (l := w), List.countP_append]
      rfl

/-- What `echo` writes comes from the words behind the options. -/
theorem countP_echo_le {escapes : Text → Text} {p : Char → Bool} (hblank : p ' ' = false)
    (hbreak : p '\n' = false) (hescapes : ∀ t, (escapes t).countP p ≤ t.countP p)
    (args : List Text) : (echo escapes args).countP p + (args.takeWhile isOption).flatten.countP p ≤
      args.flatten.countP p := by
  have hending : ∀ options, (ending options).countP p = 0 := by
    intro options
    rw [ending]
    split_ifs
    · rfl
    · rw [List.countP_singleton, hbreak]
      rfl
  have hsplit : args.flatten.countP p = (args.takeWhile isOption).flatten.countP p +
      ([' '].intercalate (args.dropWhile isOption) ++
        ending (args.takeWhile isOption).flatten).countP p := by
    rw [List.countP_append, hending, Nat.add_zero, countP_join hblank, ← List.countP_append,
      ← List.flatten_append, List.takeWhile_append_dropWhile]
  rw [hsplit, Nat.add_comm, Nat.add_le_add_iff_left, echo]
  split_ifs
  · exact hescapes _
  · exact le_rfl

/-! ## `read` -/

/-- The characters of a line with the mark of those behind a backslash, and whether the line goes
on behind a backslash at its end. -/
def unescape : Text → List (Char × Bool) × Bool
  | [] => ([], false)
  | ['\\'] => ([], true)
  | '\\' :: c :: t => ((c, true) :: (unescape t).1, (unescape t).2)
  | c :: t => ((c, false) :: (unescape t).1, (unescape t).2)

/-- The blanks at both ends are removed unless they are marked. -/
def stripped (marked : List (Char × Bool)) : Text :=
  ((marked.dropWhile fun x => isBlank x.1 && !x.2).rdropWhile fun x => isBlank x.1 && !x.2).map
    Prod.fst

/-- `while read line` behind the beginning of a line; a line that goes on when there are no more
lines is lost. -/
def readFrom : List (Char × Bool) → List Text → List Text
  | _, [] => []
  | marked, l :: ls =>
    if (unescape l).2 then readFrom (marked ++ (unescape l).1) ls
    else stripped (marked ++ (unescape l).1) :: readFrom [] ls

/-- The values that `while read line` goes through. -/
def readLines (ls : List Text) : List Text := readFrom [] ls

/-- A line that `read` does not change. -/
def Kept (l : Text) : Prop :=
  '\\' ∉ l ∧ (∀ c ∈ l.head?, isBlank c = false) ∧ ∀ c ∈ l.getLast?, isBlank c = false

theorem unescape_of_plain {l : Text} (h : '\\' ∉ l) :
    unescape l = (l.map fun c => (c, false), false) := by
  induction l with
  | nil => rfl
  | cons c l ih =>
    rw [List.mem_cons, not_or] at h
    rw [unescape, ih h.2, List.map_cons]
    · intro hc _
      exact h.1 hc.symm
    · intro d t hc _
      exact h.1 hc.symm

/-- Nothing but backslashes is removed, and every backslash that is read removes itself. -/
theorem unescape_sublist (l : Text) : ((unescape l).1.map Prod.fst).Sublist l ∧
    ('\\' ∈ l → ((unescape l).1.map Prod.fst).length < l.length) := by
  fun_induction unescape l with
  | case1 => exact ⟨List.Sublist.refl _, fun h => nomatch h⟩
  | case2 => exact ⟨List.nil_sublist _, fun _ => Nat.one_pos⟩
  | case3 c t ih =>
    have hsub : ((c :: (unescape t).1.map Prod.fst)).Sublist (c :: t) := ih.1.cons_cons c
    refine ⟨hsub.cons _, fun _ => ?_⟩
    exact Nat.lt_succ_of_le hsub.length_le
  | case4 c t hend hescape ih =>
    refine ⟨ih.1.cons_cons c, fun hmem => ?_⟩
    have hc : '\\' ∈ t := by
      rcases List.mem_cons.mp hmem with rfl | hmem
      · cases t with
        | nil => exact absurd rfl (hend rfl)
        | cons d t => exact absurd rfl (hescape d t rfl)
      · exact hmem
    exact Nat.succ_lt_succ (ih.2 hc)

theorem stripped_sublist (marked : List (Char × Bool)) :
    (stripped marked).Sublist (marked.map Prod.fst) :=
  (((List.rdropWhile_prefix _ _).sublist).trans (List.dropWhile_suffix _).sublist).map _

/-- Without backslashes the blanks at both ends are removed. -/
theorem stripped_plain (l : Text) : stripped (l.map fun c => (c, false)) = trimBy isBlank l := by
  have hclass : ((fun x : Char × Bool => isBlank x.1 && !x.2) ∘ fun c => (c, false)) = isBlank := by
    funext c
    exact Bool.and_true _
  rw [stripped, List.rdropWhile, List.dropWhile_map, ← List.map_reverse, List.dropWhile_map,
    hclass, ← List.map_reverse, List.map_map, trimBy]
  exact List.map_id _

/-- A line is read as it is if it has no backslashes and no blanks at its ends. -/
theorem kept_iff {l : Text} :
    Kept l ↔ (unescape l).2 = false ∧ (stripped (unescape l).1).length = l.length := by
  constructor
  · rintro ⟨hback, hhead, hlast⟩
    rw [unescape_of_plain hback, stripped_plain, trim_ends hhead hlast]
    exact ⟨rfl, rfl⟩
  · rintro ⟨-, hlength⟩
    obtain ⟨hsub, hlt⟩ := unescape_sublist l
    have hle := (stripped_sublist (unescape l).1).length_le
    have hback : '\\' ∉ l := fun hmem => by
      have := hlt hmem
      omega
    rw [unescape_of_plain hback, stripped_plain] at hlength
    have htrim : trimBy isBlank l = l := by
      have hsublist := stripped_sublist (l.map fun c => (c, false))
      rw [stripped_plain, List.map_map] at hsublist
      exact hsublist.eq_of_length (hlength.trans (List.length_map _).symm) |>.trans (List.map_id l)
    have hends := ends_trimBy isBlank l
    rw [htrim] at hends
    exact ⟨hback, hends⟩

theorem stripped_of_kept {l : Text} (h : Kept l) : stripped (unescape l).1 = l := by
  rw [unescape_of_plain h.1, stripped_plain, trim_ends h.2.1 h.2.2]

/-- Lines that `read` does not change are gone through one by one. -/
theorem readLines_append {ls : List Text} (h : ∀ l ∈ ls, Kept l) (ls' : List Text) :
    readLines (ls ++ ls') = ls ++ readLines ls' := by
  induction ls with
  | nil => rfl
  | cons l ls ih =>
    obtain ⟨hl, hls⟩ := List.forall_mem_cons.mp h
    have hrest : readFrom [] (ls ++ ls') = ls ++ readLines ls' := ih hls
    have hgoes : ¬(unescape l).2 = true := by rw [(kept_iff.mp hl).1]; exact Bool.false_ne_true
    rw [readLines, List.cons_append, readFrom, if_neg hgoes, List.nil_append, stripped_of_kept hl,
      hrest, List.cons_append]

/-- What is read before the last value comes from the lines before the last one. -/
theorem dropLast_readFrom_sublist (marked : List (Char × Bool)) (ls : List Text) (last : Text) :
    (readFrom marked (ls ++ [last])).dropLast.flatten.Sublist
      (marked.map Prod.fst ++ ls.flatten) := by
  induction ls generalizing marked with
  | nil =>
    rw [List.nil_append, readFrom]
    split_ifs <;> exact List.nil_sublist _
  | cons l ls ih =>
    have hline : ((marked ++ (unescape l).1).map Prod.fst).Sublist (marked.map Prod.fst ++ l) := by
      rw [List.map_append]
      exact (unescape_sublist l).1.append_left _
    rw [List.cons_append, readFrom, List.flatten_cons, ← List.append_assoc]
    split_ifs
    · exact (ih _).trans (hline.append_right _)
    · cases hrest : readFrom [] (ls ++ [last]) with
      | nil => exact List.nil_sublist _
      | cons x xs =>
        have hih := ih []
        rw [hrest] at hih
        exact ((stripped_sublist _).trans hline).append hih

/-- If nothing is lost before the last value, the lines before the last one are not changed. -/
theorem kept_of_length {ls : List Text} {last : Text}
    (h : ls.flatten.length ≤ (readLines (ls ++ [last])).dropLast.flatten.length) :
    ∀ l ∈ ls, Kept l := by
  induction ls with
  | nil => exact fun l hl => nomatch hl
  | cons l ls ih =>
    obtain ⟨hsub, hlt⟩ := unescape_sublist l
    have hle := hsub.length_le
    rw [List.length_map] at hle hlt
    rw [readLines, List.cons_append, readFrom, List.nil_append, List.flatten_cons,
      List.length_append] at h
    split_ifs at h with hgoes
    · -- the backslash at the end of the line is lost
      have hback : '\\' ∈ l := by
        by_contra hback
        rw [unescape_of_plain hback] at hgoes
        cases hgoes
      have hrest := (dropLast_readFrom_sublist (unescape l).1 ls last).length_le
      rw [List.length_append, List.length_map] at hrest
      have hlost := hlt hback
      omega
    · have hstripped := (stripped_sublist (unescape l).1).length_le
      rw [List.length_map] at hstripped
      have hrest := (dropLast_readFrom_sublist [] ls last).length_le
      rw [List.map_nil, List.nil_append] at hrest
      cases hread : readFrom [] (ls ++ [last]) with
      | nil =>
        -- the value of the line is the last one, so the lines before the last one are empty
        rw [hread] at h
        change l.length + ls.flatten.length ≤ 0 at h
        have hempty : ∀ l' ∈ l :: ls, l' = [] := by
          have hflat : (l :: ls).flatten = [] := by
            rw [← List.length_eq_zero_iff, List.flatten_cons, List.length_append]
            omega
          exact List.flatten_eq_nil_iff.mp hflat
        intro l' hl'
        rw [hempty l' hl']
        exact ⟨List.not_mem_nil, fun c hc => (nomatch hc), fun c hc => nomatch hc⟩
      | cons x xs =>
        rw [hread] at h hrest
        rw [List.dropLast_cons_cons, List.flatten_cons, List.length_append] at h
        have hkept : Kept l := kept_iff.mpr ⟨Bool.eq_false_iff.mpr hgoes, by omega⟩
        refine List.forall_mem_cons.mpr ⟨hkept, ih ?_⟩
        rw [readLines, hread]
        omega

end OpsScripts.Shell
