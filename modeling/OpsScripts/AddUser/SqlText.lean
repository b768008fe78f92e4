import Mathlib.Data.List.GetD
import OpsScripts.AddUser.Rows

/-!
# The statement for the database

`addToSql` puts the user name and the password into the text of a statement and does not
quote them. The server reads an argument without quotes as a regular identifier that ends at
the first letter which cannot stand in one. What `PassGen` returns is such an identifier;
a user name need not be one.
-/

namespace OpsScripts.AddUser

/-! ## Functions of the script -/

/-- `$charSet`. -/
def charSet : Text := "abcdefghijklmnopqrstuvwxyzABCDEFGHIJKLMNOPQRSTUVWXYZ0123456789"

/-- What `PassGen` draws: the bytes of the generator and the choices of `Get-Random`. -/
structure Draw where
  bytes : Fin 4 → UInt8
  charsUpper : Fin 26
  charsLower : Fin 26
  charsNumber : Fin 10
  charsSymbol : Fin 4

/-- `35,36,64,95`. -/
def symbols : Text := ['#', '$', '@', '_']

/-- `PassGen`. -/
def PassGen (draw : Draw) : Text :=
  let result := List.ofFn fun i => charSet.getD ((draw.bytes i).toNat % charSet.length) ' '
  Char.ofNat (65 + draw.charsUpper) :: result ++
    [symbols.getD draw.charsSymbol ' ', Char.ofNat (48 + draw.charsNumber),
      Char.ofNat (97 + draw.charsLower)]

/-- The procedure that is called. -/
def procedure : Text := "DIO.[dbo].[AFM_MOSKVICH_FIRST_LOGIN_INIT]"

/-- `$sql`. -/
def commandText (username password : Text) : Text :=
  "exec ".toList ++ procedure ++ " @IPN = ".toList ++ username ++ ",@PWD = ".toList ++ password

/-! ## The server -/

/-- The letters and digits of the server, fixed on ASCII only; no letter is white space. -/
structure Alphabet where
  letter : Char → Bool
  digit : Char → Bool
  letter_ascii : ∀ c : Char, c.val < 128 → letter c = c.isAlpha
  digit_ascii : ∀ c : Char, c.val < 128 → digit c = c.isDigit
  isSpace_letter : ∀ c, letter c = true → isSpace c = false

/-- ASCII letters are no white space. -/
theorem isSpace_of_isAlpha {c : Char} (h : c.isAlpha = true) : isSpace c = false := by
  have hn : 65 ≤ c.val.toNat ∧ c.val.toNat ≤ 90 ∨ 97 ≤ c.val.toNat ∧ c.val.toNat ≤ 122 := by
    rcases Bool.or_eq_true_iff.mp h with hupper | hlower
    · have hbetween : 'A'.val ≤ c.val ∧ c.val ≤ 'Z'.val := of_decide_eq_true hupper
      exact Or.inl ⟨UInt32.le_iff_toNat_le.mp hbetween.1, UInt32.le_iff_toNat_le.mp hbetween.2⟩
    · have hbounds := Bool.and_eq_true_iff.mp hlower
      have hfrom : 'a'.val ≤ c.val := of_decide_eq_true hbounds.1
      have hto : c.val ≤ 'z'.val := of_decide_eq_true hbounds.2
      exact Or.inr ⟨UInt32.le_iff_toNat_le.mp hfrom, UInt32.le_iff_toNat_le.mp hto⟩
  rw [isSpace]
  simp only [Bool.or_eq_false_iff, Bool.and_eq_false_iff, decide_eq_false_iff_not,
    beq_eq_false_iff_ne]
  omega

/-- ASCII only. -/
def asciiAlphabet : Alphabet :=
  ⟨Char.isAlpha, Char.isDigit, fun _ _ => rfl, fun _ _ => rfl, fun _ => isSpace_of_isAlpha⟩

/-- What a server has read: the procedure and its arguments. -/
structure Execution where
  procedure : Text
  arguments : List (Text × Text)
  deriving DecidableEq

section Reader

variable (A : Alphabet)

/-- The first letter of a regular identifier. -/
def Alphabet.first (c : Char) : Bool := A.letter c || c == '_' || c == '@' || c == '#'

/-- The letters behind it. -/
def Alphabet.subsequent (c : Char) : Bool :=
  A.letter c || A.digit c || c == '@' || c == '$' || c == '#' || c == '_'

/-- A regular identifier. -/
def Alphabet.isRegular : Text → Bool
  | [] => false
  | c :: cs => A.first c && cs.all A.subsequent

/-- Read a regular identifier; the second result is what follows. -/
def readIdentifier : Text → Option (Text × Text)
  | [] => none
  | c :: cs =>
    if A.first c then some (c :: cs.takeWhile A.subsequent, cs.dropWhile A.subsequent) else none

/-- Read `@name = value`. -/
def readArgument (t : Text) : Option ((Text × Text) × Text) :=
  match readIdentifier A (t.dropWhile isSpace) with
  | some ('@' :: name, t) =>
    match t.dropWhile isSpace with
    | '=' :: t => (readIdentifier A (t.dropWhile isSpace)).map fun (value, t) =>
        (('@' :: name, value), t)
    | _ => none
  | _ => none

/-- Read arguments between commas, `n` at most. -/
def readArguments : Nat → Text → Option (List (Text × Text) × Text)
  | 0, _ => none
  | n + 1, t =>
    match readArgument A t with
    | none => none
    | some (argument, t) =>
      match t.dropWhile isSpace with
      | ',' :: t => (readArguments n t).map fun (arguments, t) => (argument :: arguments, t)
      | t => some ([argument], t)

/-- Read an `exec` with arguments. -/
def readExecution (t : Text) : Option (Execution × Text) :=
  let word := fun t : Text => t.takeWhile fun c => !isSpace c
  let after := fun t : Text => (t.dropWhile fun c => !isSpace c).dropWhile isSpace
  if word t = "exec".toList then
    (readArguments A t.length (after (after t))).map fun (arguments, rest) =>
      (⟨word (after t), arguments⟩, rest)
  else none

/-- The statement calls the procedure with the user name and the password and ends there. -/
def StatementRight (username password : Text) : Prop :=
  readExecution A (commandText username password) =
    some (⟨procedure, [("@IPN".toList, username), ("@PWD".toList, password)]⟩, [])

instance (username password : Text) : Decidable (StatementRight A username password) :=
  inferInstanceAs (Decidable (_ = _))

end Reader

/-! ## Identifiers -/

section Identifiers

variable {A : Alphabet}

theorem first_ascii {c : Char} (hc : c.val < 128) : A.first c = asciiAlphabet.first c := by
  rw [Alphabet.first, A.letter_ascii c hc]
  rfl

theorem subsequent_ascii {c : Char} (hc : c.val < 128) :
    A.subsequent c = asciiAlphabet.subsequent c := by
  rw [Alphabet.subsequent, A.letter_ascii c hc, A.digit_ascii c hc]
  rfl

/-- On ASCII every server has the same identifiers. -/
theorem isRegular_ascii {t : Text} (ht : ∀ c ∈ t, c.val < 128) :
    A.isRegular t = asciiAlphabet.isRegular t := by
  cases t with
  | nil => rfl
  | cons c cs =>
    rw [Alphabet.isRegular, Alphabet.isRegular, first_ascii (ht c List.mem_cons_self)]
    congr 1
    rw [Bool.eq_iff_iff, List.all_eq_true, List.all_eq_true]
    refine forall₂_congr fun d hd => ?_
    rw [subsequent_ascii (ht d (List.mem_cons_of_mem c hd))]

/-- An identifier does not begin with white space. -/
theorem isSpace_of_first {c : Char} (h : A.first c = true) : isSpace c = false := by
  simp only [Alphabet.first, Bool.or_eq_true, beq_iff_eq] at h
  rcases h with ((hletter | rfl) | rfl) | rfl
  · exact A.isSpace_letter c hletter
  all_goals decide

/-- What is read is an identifier. -/
theorem isRegular_of_readIdentifier {t value rest : Text}
    (h : readIdentifier A t = some (value, rest)) : A.isRegular value = true := by
  cases t with
  | nil => cases h
  | cons c cs =>
    rw [readIdentifier] at h
    split_ifs at h with hfirst
    obtain ⟨rfl, -⟩ := Prod.mk.inj (Option.some.inj h)
    rw [Alphabet.isRegular, hfirst, Bool.true_and]
    exact List.all_takeWhile

/-- An identifier is read up to a letter that cannot stand in it. -/
theorem readIdentifier_append {name rest : Text} (hname : A.isRegular name = true)
    (hrest : ∀ c ∈ rest.head?, A.subsequent c = false) :
    readIdentifier A (name ++ rest) = some (name, rest) := by
  cases name with
  | nil => cases hname
  | cons c cs =>
    rw [Alphabet.isRegular, Bool.and_eq_true] at hname
    have hall : ∀ d ∈ cs, A.subsequent d = true := List.all_eq_true.mp hname.2
    have htake : rest.takeWhile A.subsequent = [] := by
      cases rest with
      | nil => rfl
      | cons d rest => rw [List.takeWhile_cons_of_neg (by simp [hrest d rfl])]
    have hdrop : rest.dropWhile A.subsequent = rest := by
      cases rest with
      | nil => rfl
      | cons d rest => rw [List.dropWhile_cons_of_neg (by simp [hrest d rfl])]
    rw [List.cons_append, readIdentifier, if_pos hname.1, List.takeWhile_append_of_pos hall, htake,
      List.append_nil, List.dropWhile_append_of_pos hall, hdrop]

/-! ## The password is an identifier -/

/-- A letter that stands in identifiers of every server. -/
def isPlain (c : Char) : Bool := decide (c.val < 128) && asciiAlphabet.subsequent c

theorem isPlain_charSet : ∀ c ∈ charSet, isPlain c = true :=
  List.all_eq_true.mp (by decide +kernel)

theorem isPlain_symbols : ∀ c ∈ symbols, isPlain c = true := by decide

theorem isPlain_digit : ∀ k : Fin 10, isPlain (Char.ofNat (48 + k)) = true := by decide

theorem isPlain_lower : ∀ k : Fin 26, isPlain (Char.ofNat (97 + k)) = true := by decide

theorem first_upper : ∀ k : Fin 26, (Char.ofNat (65 + k)).val < 128 ∧
    asciiAlphabet.first (Char.ofNat (65 + k)) = true := by decide

/-- Everything behind the first letter of a password. -/
theorem isPlain_of_mem_PassGen (draw : Draw) :
    ∀ c ∈ (PassGen draw).tail, isPlain c = true := by
  intro c hc
  have hresult : ∀ k, charSet.getD (k % charSet.length) ' ' ∈ charSet := by
    intro k
    have hk : k % charSet.length < charSet.length := Nat.mod_lt k (by decide)
    rw [List.getD_eq_getElem charSet ' ' hk]
    exact List.getElem_mem hk
  have hsymbol : symbols.getD draw.charsSymbol ' ' ∈ symbols := by
    rw [List.getD_eq_getElem symbols ' ' draw.charsSymbol.isLt]
    exact List.getElem_mem draw.charsSymbol.isLt
  rw [PassGen, List.cons_append, List.tail_cons, List.mem_append] at hc
  rcases hc with hc | hc
  · obtain ⟨i, rfl⟩ := List.mem_ofFn.mp hc
    exact isPlain_charSet _ (hresult _)
  · simp only [List.mem_cons, List.not_mem_nil, or_false] at hc
    rcases hc with rfl | rfl | rfl
    · exact isPlain_symbols _ hsymbol
    · exact isPlain_digit draw.charsNumber
    · exact isPlain_lower draw.charsLower

variable (A) in
/-- Every password is a regular identifier. -/
theorem isRegular_PassGen (draw : Draw) : A.isRegular (PassGen draw) = true := by
  have htail := isPlain_of_mem_PassGen draw
  have hfirst := first_upper draw.charsUpper
  rw [PassGen, List.cons_append, List.tail_cons] at htail
  rw [PassGen, List.cons_append, Alphabet.isRegular, first_ascii hfirst.1, hfirst.2, Bool.true_and,
    List.all_eq_true]
  intro c hc
  have hplain := htail c hc
  rw [isPlain, Bool.and_eq_true, decide_eq_true_eq] at hplain
  rw [subsequent_ascii hplain.1, hplain.2]

/-! ## Reading the text that is built -/

/-- Blanks in front of an identifier are passed over. -/
theorem dropWhile_append_of_isRegular {value : Text} (hvalue : A.isRegular value = true)
    (rest : Text) : (value ++ rest).dropWhile isSpace = value ++ rest := by
  cases value with
  | nil => cases hvalue
  | cons c value =>
    rw [Alphabet.isRegular, Bool.and_eq_true] at hvalue
    rw [List.cons_append, List.dropWhile_cons_of_neg]
    rw [isSpace_of_first hvalue.1]
    exact Bool.false_ne_true

variable (A) in
/-- In front of a value stand its name, a blank, an equals sign and a blank. -/
theorem readArgument_append {name : Text} (hname : A.isRegular ('@' :: name) = true) (t : Text) :
    readArgument A ('@' :: name ++ " = ".toList ++ t) =
      (readIdentifier A (t.dropWhile isSpace)).map fun (value, t) => (('@' :: name, value), t) := by
  have hread : readIdentifier A ('@' :: name ++ (" = ".toList ++ t)) =
      some ('@' :: name, " = ".toList ++ t) :=
    readIdentifier_append hname fun c hc => by
      obtain rfl : ' ' = c := Option.some.inj hc
      rw [subsequent_ascii (by decide)]
      decide
  have hequals : (" = ".toList ++ t).dropWhile isSpace = '=' :: ' ' :: t := rfl
  have hblank : (' ' :: t).dropWhile isSpace = t.dropWhile isSpace :=
    List.dropWhile_cons_of_pos (by decide)
  rw [List.append_assoc, readArgument, List.cons_append, List.dropWhile_cons_of_neg (by decide),
    ← List.cons_append, hread]
  simp only [hequals, hblank]

/-- What stands behind the name of the procedure. -/
def argumentText (username password : Text) : Text :=
  "@IPN".toList ++ " = ".toList ++
    (username ++ ',' :: ("@PWD".toList ++ " = ".toList ++ password))

theorem commandText_eq (username password : Text) :
    commandText username password =
      "exec ".toList ++ (procedure ++ ' ' :: argumentText username password) := by
  have hassoc : ∀ exec name ipn pwd : Text,
      exec ++ name ++ (' ' :: ipn) ++ username ++ (',' :: pwd) ++ password =
        exec ++ (name ++ ' ' :: (ipn ++ (username ++ ',' :: (pwd ++ password)))) := by
    intro exec name ipn pwd
    simp only [List.append_assoc, List.cons_append]
  have hsecond : ",@PWD = ".toList = ',' :: ("@PWD".toList ++ " = ".toList) := rfl
  have hfirst : " @IPN = ".toList = ' ' :: ("@IPN".toList ++ " = ".toList) := rfl
  have heq := hassoc "exec ".toList procedure ("@IPN".toList ++ " = ".toList)
    ("@PWD".toList ++ " = ".toList)
  rw [← hfirst, ← hsecond] at heq
  exact heq

/-- A word ends at a blank. -/
theorem takeWhile_word {word : Text} (h : ∀ c ∈ word, isSpace c = false) (t : Text) :
    ((word ++ ' ' :: t).takeWhile fun c => !isSpace c) = word := by
  rw [List.takeWhile_append_of_pos fun c hc => by rw [h c hc, Bool.not_false],
    List.takeWhile_cons_of_neg (by decide), List.append_nil]

theorem dropWhile_word {word : Text} (h : ∀ c ∈ word, isSpace c = false) (t : Text) :
    ((word ++ ' ' :: t).dropWhile fun c => !isSpace c) = ' ' :: t := by
  rw [List.dropWhile_append_of_pos fun c hc => by rw [h c hc, Bool.not_false],
    List.dropWhile_cons_of_neg (by decide)]

variable (A) in
theorem readExecution_commandText (username password : Text) :
    readExecution A (commandText username password) =
      (readArguments A (commandText username password).length
        (argumentText username password)).map fun (arguments, rest) =>
          (⟨procedure, arguments⟩, rest) := by
  have hexec : "exec ".toList = "exec".toList ++ [' '] := rfl
  have hword : ∀ c ∈ "exec".toList, isSpace c = false := by decide
  have hprocedure : ∀ c ∈ procedure, isSpace c = false := by decide +kernel
  have hblank : ∀ t : Text, (' ' :: (procedure ++ ' ' :: t)).dropWhile isSpace =
      procedure ++ ' ' :: t := fun _ => rfl
  have hrest : (' ' :: argumentText username password).dropWhile isSpace =
      argumentText username password := rfl
  rw [readExecution, commandText_eq, hexec, List.append_assoc, List.singleton_append]
  simp only [takeWhile_word hword, dropWhile_word hword, hblank, takeWhile_word hprocedure,
    dropWhile_word hprocedure, hrest, if_true]

theorem isRegular_parameter (name : Text) (hname : asciiAlphabet.isRegular ('@' :: name) = true)
    (hascii : ∀ c ∈ name, c.val < 128) : A.isRegular ('@' :: name) = true := by
  rw [isRegular_ascii, hname]
  exact List.forall_mem_cons.mpr ⟨by decide, hascii⟩

/-- Behind the first value the second one is read. -/
theorem readArguments_argumentText {username password : Text} {n : Nat}
    (husername : A.isRegular username = true) (hpassword : A.isRegular password = true) :
    readArguments A (n + 2) (argumentText username password) =
      some ([("@IPN".toList, username), ("@PWD".toList, password)], []) := by
  have hcomma : ∀ t : Text, readIdentifier A (username ++ ',' :: t) = some (username, ',' :: t) :=
    fun t => readIdentifier_append husername fun c hc => by
      obtain rfl : ',' = c := Option.some.inj hc
      rw [subsequent_ascii (by decide)]
      decide
  have hend : readIdentifier A password = some (password, []) := by
    have happend : readIdentifier A (password ++ []) = some (password, []) :=
      readIdentifier_append hpassword fun c hc => by cases hc
    rwa [List.append_nil] at happend
  have hstart : password.dropWhile isSpace = password := by
    have happend := dropWhile_append_of_isRegular hpassword []
    rwa [List.append_nil] at happend
  have hfirst : readArgument A (argumentText username password) =
      some (("@IPN".toList, username), ',' :: ("@PWD".toList ++ " = ".toList ++ password)) := by
    have hipn : "@IPN".toList = '@' :: ['I', 'P', 'N'] := rfl
    rw [argumentText, hipn, readArgument_append A (isRegular_parameter _ (by decide) (by decide)),
      dropWhile_append_of_isRegular husername, hcomma]
    rfl
  have hsecond : readArgument A ("@PWD".toList ++ " = ".toList ++ password) =
      some (("@PWD".toList, password), []) := by
    have hpwd : "@PWD".toList = '@' :: ['P', 'W', 'D'] := rfl
    rw [hpwd, readArgument_append A (isRegular_parameter _ (by decide) (by decide)), hstart, hend]
    rfl
  have hskip : ∀ t : Text, (',' :: t).dropWhile isSpace = ',' :: t :=
    fun t => List.dropWhile_cons_of_neg (by decide)
  rw [readArguments, hfirst]
  simp only [hskip, readArguments, hsecond, List.dropWhile_nil, Option.map_some]

/-- The value of an argument is an identifier. -/
theorem isRegular_of_readArgument {t : Text} {read : (Text × Text) × Text}
    (h : readArgument A t = some read) : A.isRegular read.1.2 = true := by
  unfold readArgument at h
  split at h
  · split at h
    · obtain ⟨⟨value, rest⟩, hread, rfl⟩ := Option.map_eq_some_iff.mp h
      exact isRegular_of_readIdentifier hread
    · cases h
  · cases h

/-- The first value that is read is an identifier. -/
theorem isRegular_of_readArguments {n : Nat} {username password name value rest : Text}
    {arguments : List (Text × Text)}
    (h : readArguments A n (argumentText username password) =
      some ((name, value) :: arguments, rest)) : A.isRegular value = true := by
  cases n with
  | zero => cases h
  | succ n =>
    rw [readArguments] at h
    cases hread : readArgument A (argumentText username password) with
    | none => simp only [hread, reduceCtorEq] at h
    | some first =>
      have hvalue := isRegular_of_readArgument hread
      obtain ⟨argument, t⟩ := first
      simp only [hread] at h
      split at h
      · obtain ⟨_, -, heq⟩ := Option.map_eq_some_iff.mp h
        simp only [Prod.mk.injEq, List.cons.injEq] at heq
        rw [heq.1.1] at hvalue
        exact hvalue
      · simp only [Option.some.injEq, Prod.mk.injEq, List.cons.injEq] at h
        rw [h.1.1] at hvalue
        exact hvalue

variable (A) in
/-- The statement is right exactly if the user name is a regular identifier. -/
theorem statementRight_iff (draw : Draw) (username : Text) :
    StatementRight A username (PassGen draw) ↔ A.isRegular username = true := by
  have hpassword := isRegular_PassGen A draw
  rw [StatementRight, readExecution_commandText]
  constructor
  · intro h
    obtain ⟨⟨arguments, rest⟩, hread, heq⟩ := Option.map_eq_some_iff.mp h
    simp only [Prod.mk.injEq, Execution.mk.injEq, true_and] at heq
    rw [heq.1] at hread
    exact isRegular_of_readArguments hread
  · intro husername
    have hlength : ∃ n, (commandText username (PassGen draw)).length = n + 2 := by
      rw [commandText_eq]
      exact ⟨_, rfl⟩
    obtain ⟨n, hn⟩ := hlength
    rw [hn, readArguments_argumentText husername hpassword]
    rfl

end Identifiers

section Example

local instance asciiSqlText : Culture := Culture.ascii

/-- A row whose account name goes on behind a comma. -/
def commaRow : Record := fun
  | .ipn => some "pu1,@pwd=x--".toList
  | _ => some []

/-- The least draw. -/
def firstDraw : Draw := ⟨fun _ => 0, 0, 0, 0, 0⟩

/-- The server reads a password that the row contains, and something follows. -/
example : readExecution asciiAlphabet (commandText (username commaRow) (PassGen firstDraw)) =
    some (⟨procedure, [("@IPN".toList, "pu1".toList), ("@pwd".toList, "x".toList)]⟩,
      "--,@PWD = Aaaaa#0a".toList) := by
  decide +kernel

/-- The name passes the test of the row, and the statement is another one. -/
theorem commaRow_not_statementRight : usable (username commaRow) = true ∧
    ¬StatementRight asciiAlphabet (username commaRow) (PassGen firstDraw) := by
  decide +kernel

end Example

end OpsScripts.AddUser
