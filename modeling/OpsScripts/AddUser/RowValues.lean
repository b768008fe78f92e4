import OpsScripts.AddUser.Rows

/-!
# The values written for a row

The cells of a row are put into variables before a branch is chosen. An expression that
raises an error leaves its variable as it was, and only the branches that change or create
an account reset some of the variables at their end. So a value that is written may be one
that an earlier row has left behind, unless the row assigns it itself.
-/

namespace OpsScripts.AddUser

/-- What `Set-ADUser` and `New-ADUser` write; `$null` is no text. -/
structure Attributes where
  givenName : Option Text
  surname : Option Text
  displayName : Text
  mobilePhone : Text
  officePhone : Option Text
  emailAddress : Option Text
  title : Option Text
  deriving DecidableEq

/-- The variables that an iteration may take over from an earlier one. -/
@[ext]
structure Variables where
  username : Option Text
  firstname : Option Text
  email : Option Text
  fathername : Option Text

/-- No row has been read yet. -/
def Variables.start : Variables := ⟨none, none, none, none⟩

/-- The end of the branches that change or create an account. -/
def Variables.reset (v : Variables) : Variables := { v with firstname := none, email := none }

/-- `Get-ADUser -F { SamAccountName -eq $username }`, with what follows inside the `try`:
an error before `Set-ADUser` leaves nothing written. -/
inductive Lookup where
  | failed
  | found (reached : Bool)
  | missing

section Values

variable [Culture]

/-! ## The assignments -/

/-- `X.substring(0,1).toupper()+X.substring(1).tolower()`, an error without a character. -/
def capitalise : Option Text → Option Text
  | some (c :: cs) => some (toUpper [c] ++ toLower cs)
  | _ => none

/-- `$lastname`, with the first name for a person who has only one. -/
def lastname (firstname : Option Text) (r : Record) : Option Text :=
  if r .name = some [] then firstname else capitalise (r .name)

/-- The texts that stand for no mail address. -/
def noMail : List Text := [".".toList, "-".toList, "Empty".toList, "creation".toList]

/-- The domain of the mail addresses. -/
def mailDomain : Text := "@moskvich-auto.ru"

/-- The right side of `$email`, an error for `$null`. -/
def emailOf (r : Record) : Option Text :=
  (r .emailShort).map fun short =>
    if noMail.any (eqIgnoreCase (toLower short)) then [' '] else toLower short ++ mailDomain

/-- A cell, or a blank where it is empty. -/
def orBlank (cell : Option Text) : Option Text := if cell = some [] then some [' '] else cell

/-- `$telephone`. -/
def telephone (r : Record) : Text :=
  if r .mobilePhone = some [] then [' '] else '8' :: (r .mobilePhone).getD []

/-- The right side of `$fathername`. -/
def fathernameOf (r : Record) : Option Text :=
  if r .patro = some [] then some "     ".toList else capitalise (r .patro)

/-- The assignments of an iteration; an error keeps the old value. -/
def Variables.assign (v : Variables) (r : Record) : Variables where
  username := ((r .ipn).map fun ipn => trim (toLower ipn)).or v.username
  firstname := (capitalise (r .surname)).or v.firstname
  email := (emailOf r).or v.email
  fathername := (fathernameOf r).or v.fathername

/-- `$DisplayName`. -/
def displayName (firstname lastname fathername : Option Text) : Text :=
  firstname.getD [] ++ ' ' :: lastname.getD [] ++ ' ' :: fathername.getD []

/-- The arguments of the cmdlet that writes the account. -/
def Variables.attributes (v : Variables) (r : Record) : Attributes where
  givenName := v.firstname
  surname := lastname v.firstname r
  displayName := displayName v.firstname (lastname v.firstname r) v.fathername
  mobilePhone := telephone r
  officePhone := orBlank (r .additionalPhone)
  emailAddress := v.email
  title := orBlank (r .foncRu)

/-! ## The loop -/

/-- One row: the variables it leaves and what it writes. -/
def applyRow (v : Variables) (row : Record × Lookup) : Variables × Option Attributes :=
  let assigned := v.assign row.1
  if !assigned.username.any usable || isInactive row.1 then (assigned, none)
  else
    match row.2 with
    | .failed => (assigned, none)
    | .found reached =>
      (assigned.reset, if reached then some (assigned.attributes row.1) else none)
    | .missing => (assigned.reset, some (assigned.attributes row.1))

/-- What is written for each row. -/
def written : Variables → List (Record × Lookup) → List (Option Attributes)
  | _, [] => []
  | v, row :: rows => (applyRow v row).2 :: written (applyRow v row).1 rows

/-- What a list of rows writes for row `k`. -/
def Writes (rows : List (Record × Lookup)) (k : Nat) (r : Record) (a : Attributes) : Prop :=
  (∃ lookup, rows[k]? = some (r, lookup)) ∧ (written Variables.start rows)[k]? = some (some a)

/-- What is written for a row is the same among any other rows. -/
def Independent (r : Record) : Prop :=
  ∀ rows rows' k k' a a', Writes rows k r a → Writes rows' k' r a' → a = a'

/-- What stands for the empty cells of a row. -/
structure Blanks (r : Record) (a : Attributes) : Prop where
  name : r .name = some [] → a.surname = a.givenName
  mobilePhone : r .mobilePhone = some [] → a.mobilePhone = [' ']
  additionalPhone : r .additionalPhone = some [] → a.officePhone = some [' ']
  foncRu : r .foncRu = some [] → a.title = some [' ']
  patro : r .patro = some [] → a.displayName = displayName a.givenName a.surname "     ".toList
  noMail : ∀ short, r .emailShort = some short →
    (∃ text ∈ noMail, eqIgnoreCase (toLower short) text) → a.emailAddress = some [' ']
  mail : ∀ short, r .emailShort = some short → short ≠ [] →
    (∀ text ∈ AddUser.noMail, ¬eqIgnoreCase (toLower short) text) →
      a.emailAddress = some (toLower short ++ mailDomain) ∧ toLower short ≠ []

/-- A row with a surname that lacks neither the cell of the mail address nor the one of the
patronymic. -/
structure Readable (r : Record) : Prop where
  surname : ∃ c cs, r .surname = some (c :: cs)
  emailShort : (r .emailShort).isSome
  patro : (r .patro).isSome

/-! ## Two runs -/

/-- A row writes the values its own assignments leave in the variables. -/
theorem eq_attributes_of_applyRow {v : Variables} {row : Record × Lookup} {a : Attributes}
    (h : (applyRow v row).2 = some a) : a = (v.assign row.1).attributes row.1 := by
  unfold applyRow at h
  dsimp only at h
  split at h
  · cases h
  · cases hlookup : row.2 with
    | failed =>
      rw [hlookup] at h
      cases h
    | found reached =>
      rw [hlookup] at h
      cases reached with
      | false => cases h
      | true => exact (Option.some.inj h).symm
    | missing =>
      rw [hlookup] at h
      exact (Option.some.inj h).symm

/-- What is written for row `k` comes from the assignments of row `k`. -/
theorem exists_eq_attributes {rows : List (Record × Lookup)} {k : Nat} {row : Record × Lookup}
    {a : Attributes} (v : Variables) (hrow : rows[k]? = some row)
    (h : (written v rows)[k]? = some (some a)) :
    ∃ before : Variables, a = (before.assign row.1).attributes row.1 := by
  induction rows generalizing v k with
  | nil => cases hrow
  | cons first rows ih =>
    cases k with
    | zero =>
      obtain rfl : first = row := Option.some.inj hrow
      exact ⟨v, eq_attributes_of_applyRow (Option.some.inj h)⟩
    | succ k => exact ih (applyRow v first).1 hrow h

theorem Writes.exists_eq {rows : List (Record × Lookup)} {k : Nat} {r : Record} {a : Attributes}
    (h : Writes rows k r a) : ∃ before : Variables, a = (before.assign r).attributes r := by
  obtain ⟨⟨lookup, hrow⟩, hwritten⟩ := h
  exact exists_eq_attributes Variables.start hrow hwritten

theorem Readable.isSome_fathernameOf {r : Record} (h : Readable r) : (fathernameOf r).isSome := by
  obtain ⟨patro, hpatro⟩ := Option.isSome_iff_exists.mp h.patro
  unfold fathernameOf
  rw [hpatro]
  cases patro with
  | nil => rfl
  | cons c cs =>
    rw [if_neg (by simp)]
    rfl

/-- A readable row has a first name of its own. -/
theorem Readable.firstname_assign {r : Record} (h : Readable r) (v w : Variables) :
    (v.assign r).firstname = (w.assign r).firstname := by
  obtain ⟨c, cs, hsurname⟩ := h.surname
  simp only [Variables.assign, hsurname, capitalise, Option.some_or]

/-- A readable row assigns every variable that is written. -/
theorem Readable.attributes_assign {r : Record} (h : Readable r) (v w : Variables) :
    (v.assign r).attributes r = (w.assign r).attributes r := by
  obtain ⟨short, hshort⟩ := Option.isSome_iff_exists.mp h.emailShort
  obtain ⟨fathername, hfathername⟩ := Option.isSome_iff_exists.mp h.isSome_fathernameOf
  have hemail : (v.assign r).email = (w.assign r).email := by
    simp only [Variables.assign, emailOf, hshort, Option.map_some, Option.some_or]
  have hfather : (v.assign r).fathername = (w.assign r).fathername := by
    simp only [Variables.assign, hfathername, Option.some_or]
  rw [Variables.attributes, Variables.attributes, h.firstname_assign v w, hemail, hfather]

/-- The empty cells of a row, whatever the variables hold before. -/
theorem blanks_attributes (v : Variables) (r : Record) :
    Blanks r ((v.assign r).attributes r) where
  name h := by simp only [Variables.attributes, lastname, h, if_true]
  mobilePhone h := by simp only [Variables.attributes, telephone, h, if_true]
  additionalPhone h := by simp only [Variables.attributes, orBlank, h, if_true]
  foncRu h := by simp only [Variables.attributes, orBlank, h, if_true]
  patro h := by
    simp only [Variables.attributes, Variables.assign, fathernameOf, h, if_true, Option.some_or,
      String.toList]
  noMail short hshort hnoMail := by
    have hany : noMail.any (eqIgnoreCase (toLower short)) = true := List.any_eq_true.mpr hnoMail
    simp only [Variables.attributes, Variables.assign, emailOf, hshort, hany, Option.map_some,
      Option.some_or, if_true]
  mail short hshort hne hmail := by
    have hany : noMail.any (eqIgnoreCase (toLower short)) = false := List.any_eq_false.mpr hmail
    have hlocal : toLower short ≠ [] := fun h => hne (List.map_eq_nil_iff.mp h)
    refine ⟨?_, hlocal⟩
    simp only [Variables.attributes, Variables.assign, emailOf, hshort, hany, Option.map_some,
      Option.some_or, Bool.false_eq_true, if_false]

/-- The values written for a readable row depend on this row only, and its empty cells
become blanks or, for the name, its own first name. -/
theorem rows_apart {r : Record} (h : Readable r) :
    Independent r ∧ ∀ rows k a, Writes rows k r a → Blanks r a := by
  constructor
  · intro rows rows' k k' a a' hwrites hwrites'
    obtain ⟨before, rfl⟩ := hwrites.exists_eq
    obtain ⟨before', rfl⟩ := hwrites'.exists_eq
    exact h.attributes_assign before before'
  · intro rows k a hwrites
    obtain ⟨before, rfl⟩ := hwrites.exists_eq
    exact blanks_attributes before r

end Values

section Example

local instance asciiRows : Culture := Culture.ascii

/-- An active row with a user name and otherwise empty cells. -/
def emptyRow : Record := fun
  | .ipn => some "pu00002".toList
  | .isActive => some "True".toList
  | _ => some []

/-- A row that disables an account. -/
def dismissedRow (surname patro emailShort : Text) : Record := fun
  | .ipn => some "pu00001".toList
  | .surname => some surname
  | .patro => some patro
  | .emailShort => some emailShort
  | .isActive => some "False".toList
  | _ => some []

/-- A row without a first name and without a mail address. -/
def petrov : Record := fun
  | .surname => some "petrov".toList
  | column => emptyRow column

theorem rows_apart_petrov :
    Writes [(dismissedRow "Ivanov".toList [] [], .failed), (petrov, .missing)] 1 petrov
        ((Variables.start.assign petrov).attributes petrov) ∧
      Independent petrov ∧ ∀ rows k a, Writes rows k petrov a → Blanks petrov a :=
  ⟨⟨⟨.missing, rfl⟩, by decide +kernel⟩, rows_apart ⟨⟨_, _, rfl⟩, rfl, rfl⟩⟩

/-- A row that writes different values behind different rows. -/
theorem not_independent {r : Record} (first first' : Record) {a a' : Attributes} (hne : a ≠ a')
    (h : Writes [(first, .failed), (r, .missing)] 1 r a)
    (h' : Writes [(first', .failed), (r, .missing)] 1 r a') : ¬Independent r :=
  fun hindependent => hne (hindependent _ _ 1 1 a a' h h')

/-- A row with all cells, but without a surname. -/
def namelessRow : Record := fun
  | .name => some "petr".toList
  | .patro => some "ivanovich".toList
  | .emailShort => some "p.petrov".toList
  | column => emptyRow column

/-- The disabled row of another person lends its given name to a row without a surname, whether the
other cells are empty or not; and an empty mail cell gives an address without a local part, an empty
name the given name. -/
theorem rows_not_apart :
    ¬Independent emptyRow ∧ ¬Independent namelessRow ∧
      ∃ a, Writes [(petrov, .missing)] 0 petrov a ∧ a.emailAddress = some mailDomain ∧
        a.surname = some "Petrov".toList := by
  refine ⟨?_, ?_, _, ⟨⟨.missing, rfl⟩, rfl⟩, by decide +kernel, by decide +kernel⟩
  all_goals
    refine not_independent (dismissedRow "Ivanov".toList "Ilya".toList "ivanov".toList)
      (dismissedRow "Sidorov".toList "Oleg".toList "sidorov".toList) ?_
      ⟨⟨.missing, rfl⟩, rfl⟩ ⟨⟨.missing, rfl⟩, rfl⟩
    decide +kernel

end Example

end OpsScripts.AddUser
