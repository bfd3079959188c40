import TrainVla.Python.Text

/-! `argparse` for programs whose options all take one argument, besides `-h` and `--help`. -/
namespace Python.Argparse

inductive Action
  | help
  | store (option : String)

/-- How the arguments are classified before any of them is consumed. -/
inductive Arg
  | plain (text : String)
  | separator
  | option (action : Action) (explicitArg : Option String)
  | unknown (text : String)

inductive ArgumentError
  | ambiguousOption (arg : String)
  | ignoredExplicitArgument (arg : String)
  | expectedOneArgument (option : String)
  | invalidValue (option value : String)
  | required (options : List String)
  | unrecognized (args : List String)

/-- The ways in which a program does not get past its command line. -/
inductive Exit
  | helpPrinted
  | usage (error : ArgumentError)

/-- A long option; it is told apart from the one that is always there. -/
def Long (option : String) : Prop :=
  option ≠ "--help" ∧ option ≠ "--" ∧ ['-', '-'] <+: option.toList

instance (option : String) : Decidable (Long option) := inferInstanceAs (Decidable (_ ∧ _))

/-- The options of a parser, all of them required, and what it does with the value of one. -/
structure Parser (ν : Type) where
  options : List String
  long : ∀ option ∈ options, Long option
  take : String → String → ν → Option ν
  missing : ν → List String

def actions (options : List String) : List (String × Action) :=
  ("-h", .help) :: ("--help", .help) :: options.map fun option => (option, .store option)

/-- `str.partition("=")`, on the first equals sign. -/
def partitionEq : List Char → List Char × Option (List Char)
  | [] => ([], none)
  | c :: rest =>
    if c = '=' then ([], some rest)
    else
      let (before, after) := partitionEq rest
      (c :: before, after)

/-- A cluster of short flags in which there is nothing but `h`. -/
def helpCluster (rest : List Char) : Option String :=
  if rest.all (· = 'h') then none else some (String.ofList rest)

/-- `_get_option_tuples`: the options that the argument may be short for. -/
def getOptionTuples (options : List String) (arg : List Char) : List (Action × Option String) :=
  match arg with
  | '-' :: '-' :: _ =>
    let (before, after) := partitionEq arg
    ((actions options).filter fun entry => before.isPrefixOf entry.1.toList).map
      fun entry => (entry.2, after.map String.ofList)
  | '-' :: c :: rest =>
    (actions options).filterMap fun entry =>
      if entry.1.toList = ['-', c] then some (entry.2, helpCluster rest)
      else if arg.isPrefixOf entry.1.toList then some (entry.2, none)
      else none
  | _ => []

/-- `-\d+` or `-\d*\.\d+`, without the minus; a line end may follow. -/
def negativeNumber (text : List Char) : Bool :=
  let body := if text.getLast? = some '\n' then text.dropLast else text
  let whole := body.takeWhile fun c => (decimal? c).isSome
  match body.dropWhile fun c => (decimal? c).isSome with
  | [] => !whole.isEmpty
  | '.' :: fraction => !fraction.isEmpty && fraction.all fun c => (decimal? c).isSome
  | _ => false

/-- `_parse_optional`. -/
def parseOptional (options : List String) (arg : String) : Except Exit Arg :=
  match arg.toList with
  | '-' :: c :: rest =>
    match (actions options).lookup arg with
    | some action => .ok (.option action none)
    | none =>
      let (before, after) := partitionEq arg.toList
      match after, (actions options).lookup (String.ofList before) with
      | some explicitArg, some action => .ok (.option action (some (String.ofList explicitArg)))
      | _, _ =>
        match getOptionTuples options arg.toList with
        | [] =>
          if negativeNumber (c :: rest) ∨ ' ' ∈ c :: rest then .ok (.plain arg)
          else .ok (.unknown arg)
        | [(action, explicitArg)] => .ok (.option action explicitArg)
        | _ :: _ :: _ => .error (.usage (.ambiguousOption arg))
  | _ => .ok (.plain arg)

/-- The first loop of `_parse_known_args`. -/
def classify (options : List String) : List String → Except Exit (List Arg)
  | [] => .ok []
  | arg :: rest =>
    if arg = "--" then .ok (.separator :: rest.map .plain)
    else do
      let first ← parseOptional options arg
      let others ← classify options rest
      .ok (first :: others)

variable {ν : Type} (p : Parser ν)

def store (option value : String) (namespace' : ν) : Except Exit ν :=
  match p.take option value namespace' with
  | some taken => .ok taken
  | none => .error (.usage (.invalidValue option value))

/-- The second loop: the namespace, and what nobody wanted. -/
def consume : ν → List Arg → Except Exit (ν × List String)
  | taken, [] => .ok (taken, [])
  | taken, .plain text :: rest => do
    let (taken, extras) ← consume taken rest
    .ok (taken, text :: extras)
  | taken, .unknown text :: rest => do
    let (taken, extras) ← consume taken rest
    .ok (taken, text :: extras)
  | taken, .separator :: rest => do
    let (taken, extras) ← consume taken rest
    .ok (taken, "--" :: extras)
  | _, .option .help none :: _ => .error .helpPrinted
  | _, .option .help (some text) :: _ => .error (.usage (.ignoredExplicitArgument text))
  | taken, .option (.store option) (some value) :: rest => do
    let taken ← store p option value taken
    consume taken rest
  | taken, .option (.store option) none :: .plain value :: rest => do
    let taken ← store p option value taken
    consume taken rest
  | _, .option (.store option) none :: _ => .error (.usage (.expectedOneArgument option))

/-- `parse_args`. -/
def parseArgs (initial : ν) (argv : List String) : Except Exit ν := do
  let args ← classify p.options argv
  let (taken, extras) ← consume p initial args
  if p.missing taken ≠ [] then .error (.usage (.required (p.missing taken)))
  else if extras ≠ [] then .error (.usage (.unrecognized extras))
  else .ok taken

/-! Command lines that give each option its value. -/

/-- The value is not taken for an option. -/
def Plain (options : List String) (value : String) : Prop :=
  value ≠ "--" ∧ parseOptional options value = .ok (.plain value)

/-- The command line that gives the options these values. -/
def render (values : List (String × String)) : List String :=
  values.flatMap fun entry => [entry.1, entry.2]

def renderArgs (values : List (String × String)) : List Arg :=
  values.flatMap fun entry => [.option (.store entry.1) none, .plain entry.2]

theorem lookup_actions {options : List String} {option : String} (h : option ∈ options)
    (hlong : Long option) : (actions options).lookup option = some (.store option) := by
  have hshort : option ≠ "-h" := by
    rintro rfl
    exact absurd hlong.2.2 (by decide)
  have hlookup : (options.map fun option => (option, Action.store option)).lookup option =
      some (.store option) := by
    induction options with
    | nil => cases h
    | cons first rest ih =>
      rw [List.map_cons, List.lookup_cons]
      by_cases heq : option = first
      · rw [heq, beq_self_eq_true]
      · rw [beq_false_of_ne heq]
        exact ih (List.mem_of_ne_of_mem heq h)
  unfold actions
  rw [List.lookup_cons, beq_false_of_ne hshort, List.lookup_cons, beq_false_of_ne hlong.1]
  exact hlookup

theorem parseOptional_option {options : List String} {option : String} (h : option ∈ options)
    (hlong : Long option) : parseOptional options option = .ok (.option (.store option) none) := by
  obtain ⟨rest, hrest⟩ := hlong.2.2
  unfold parseOptional
  rw [← hrest]
  dsimp only [List.cons_append]
  rw [lookup_actions h hlong]
  rfl

theorem plain_of_head? {options : List String} {value : String}
    (h : value.toList.head? ≠ some '-') : Plain options value := by
  constructor
  · rintro rfl
    exact absurd rfl h
  · unfold parseOptional
    split
    · rename_i heq
      rw [heq] at h
      exact absurd rfl h
    · rfl

/-- Only the arguments themselves are plain. -/
theorem parseOptional_plain {options : List String} {arg text : String}
    (h : parseOptional options arg = .ok (.plain text)) : text = arg := by
  unfold parseOptional at h
  split at h
  · split at h
    · cases h
    · dsimp only at h
      split at h
      · cases h
      · split at h
        · split at h
          · cases h
            rfl
          · cases h
        · cases h
        · cases h
  · cases h
    rfl

theorem parseOptional_error {options : List String} {arg : String} {e : Exit}
    (h : parseOptional options arg = .error e) : ∃ error, e = .usage error := by
  unfold parseOptional at h
  split at h
  · split at h
    · cases h
    · dsimp only at h
      split at h
      · cases h
      · split at h
        · split at h <;> cases h
        · cases h
        · cases h
          exact ⟨_, rfl⟩
  · cases h

theorem classify_error {options argv : List String} {e : Exit}
    (h : classify options argv = .error e) : ∃ error, e = .usage error := by
  induction argv with
  | nil => cases h
  | cons arg rest ih =>
    unfold classify at h
    split at h
    · cases h
    · cases hfirst : parseOptional options arg with
      | error e' =>
        rw [hfirst] at h
        obtain rfl := Except.error.inj h
        exact parseOptional_error hfirst
      | ok first =>
        rw [hfirst] at h
        cases hothers : classify options rest with
        | error e' =>
          rw [hothers] at h
          obtain rfl := Except.error.inj h
          exact ih hothers
        | ok others =>
          rw [hothers] at h
          cases h

section

variable {p : Parser ν} {values : List (String × String)}

theorem classify_option {option : String} (h : option ∈ p.options) (rest : List String) :
    classify p.options (option :: rest) = (classify p.options rest).map (.option (.store option) none :: ·) := by
  have hlong := p.long option h
  rw [classify, if_neg hlong.2.1, parseOptional_option h hlong]
  cases classify p.options rest <;> rfl

theorem classify_plain {options : List String} {value : String} (h : Plain options value)
    (rest : List String) :
    classify options (value :: rest) = (classify options rest).map (.plain value :: ·) := by
  rw [classify, if_neg h.1, h.2]
  cases classify options rest <;> rfl

/-- What does not count as a value is classified as something else. -/
theorem classify_of_not_plain {options : List String} {value : String} (h : ¬ Plain options value)
    {rest : List String} {args : List Arg} (hargs : classify options (value :: rest) = .ok args) :
    ∃ arg others, args = arg :: others ∧ ∀ text, arg ≠ .plain text := by
  unfold classify at hargs
  split at hargs
  · obtain rfl := Except.ok.inj hargs
    exact ⟨.separator, _, rfl, by simp⟩
  · rename_i hne
    cases hfirst : parseOptional options value with
    | error e =>
      rw [hfirst] at hargs
      cases hargs
    | ok arg =>
      rw [hfirst] at hargs
      cases hothers : classify options rest with
      | error e =>
        rw [hothers] at hargs
        cases hargs
      | ok others =>
        rw [hothers] at hargs
        obtain rfl := Except.ok.inj hargs
        refine ⟨arg, others, rfl, ?_⟩
        rintro text rfl
        apply h
        rw [parseOptional_plain hfirst] at hfirst
        exact ⟨hne, hfirst⟩

theorem classify_render (hoptions : ∀ entry ∈ values, entry.1 ∈ p.options)
    (hplain : ∀ entry ∈ values, Plain p.options entry.2) :
    classify p.options (render values) = .ok (renderArgs values) := by
  induction values with
  | nil => rfl
  | cons entry values ih =>
    rw [List.forall_mem_cons] at hoptions hplain
    show classify p.options (entry.1 :: entry.2 :: render values) = _
    rw [classify_option hoptions.1, classify_plain hplain.1, ih hoptions.2 hplain.2]
    rfl

/-- All values are stored, one after the other. -/
def storeAll (p : Parser ν) (taken : ν) (values : List (String × String)) : Except Exit ν :=
  values.foldlM (fun taken entry => store p entry.1 entry.2 taken) taken

theorem storeAll_cons {option value : String} {taken taken' : ν}
    (h : p.take option value taken = some taken') :
    storeAll p taken ((option, value) :: values) = storeAll p taken' values := by
  have hstore : store p option value taken = .ok taken' := by
    unfold store
    rw [h]
  unfold storeAll
  rw [List.foldlM_cons]
  show (store p option value taken >>= _) = _
  rw [hstore]
  rfl

theorem consume_renderArgs (taken : ν) :
    consume p taken (renderArgs values) = (storeAll p taken values).map (·, []) := by
  induction values generalizing taken with
  | nil => rfl
  | cons entry values ih =>
    show (store p entry.1 entry.2 taken >>= fun taken => consume p taken (renderArgs values)) = _
    unfold storeAll
    rw [List.foldlM_cons]
    cases store p entry.1 entry.2 taken with
    | error e => rfl
    | ok taken' => exact ih taken'

/-- The values arrive as they were given, if none of them looks like an option. -/
theorem parseArgs_render (hoptions : ∀ entry ∈ values, entry.1 ∈ p.options)
    (hplain : ∀ entry ∈ values, Plain p.options entry.2) {initial taken : ν}
    (hstore : storeAll p initial values = .ok taken) (hmissing : p.missing taken = []) :
    parseArgs p initial (render values) = .ok taken := by
  unfold parseArgs
  rw [classify_render hoptions hplain]
  show (consume p initial (renderArgs values) >>= _) = _
  rw [consume_renderArgs, hstore]
  show (if p.missing taken ≠ [] then _ else _) = _
  rw [hmissing]
  rfl

theorem store_error {option value : String} {taken : ν} {e : Exit}
    (h : store p option value taken = .error e) : ∃ error, e = .usage error := by
  unfold store at h
  split at h
  · cases h
  · cases h
    exact ⟨_, rfl⟩

/-- An option without the value that it needs. -/
theorem consume_option_of_not_plain {option : String} {arg : Arg} (h : ∀ text, arg ≠ .plain text)
    (taken : ν) (rest : List Arg) :
    consume p taken (.option (.store option) none :: arg :: rest) =
      .error (.usage (.expectedOneArgument option)) := by
  cases arg with
  | plain text => exact absurd rfl (h text)
  | _ => rfl

theorem consume_of_not_plain (hoptions : ∀ entry ∈ values, entry.1 ∈ p.options)
    (hplain : ∃ entry ∈ values, ¬ Plain p.options entry.2) {args : List Arg}
    (hargs : classify p.options (render values) = .ok args) (taken : ν) :
    ∃ error, consume p taken args = .error (.usage error) := by
  induction values generalizing args taken with
  | nil =>
    obtain ⟨entry, hmem, -⟩ := hplain
    cases hmem
  | cons entry values ih =>
    rw [List.forall_mem_cons] at hoptions
    have hfirst : classify p.options (entry.1 :: entry.2 :: render values) = .ok args := hargs
    rw [classify_option hoptions.1] at hfirst
    cases hothers : classify p.options (entry.2 :: render values) with
    | error e =>
      rw [hothers] at hfirst
      cases hfirst
    | ok others =>
      rw [hothers] at hfirst
      obtain rfl := Except.ok.inj hfirst
      by_cases hvalue : Plain p.options entry.2
      · rw [classify_plain hvalue] at hothers
        have hrest : ∃ entry ∈ values, ¬ Plain p.options entry.2 := by
          obtain ⟨entry', hmem, hnot⟩ := hplain
          rcases List.mem_cons.mp hmem with rfl | hmem
          · exact absurd hvalue hnot
          · exact ⟨entry', hmem, hnot⟩
        cases hvalues : classify p.options (render values) with
        | error e =>
          rw [hvalues] at hothers
          cases hothers
        | ok others' =>
          rw [hvalues] at hothers
          obtain rfl := Except.ok.inj hothers
          show ∃ error, (store p entry.1 entry.2 taken >>= fun taken => consume p taken others') = _
          cases hstore : store p entry.1 entry.2 taken with
          | error e =>
            obtain ⟨error, rfl⟩ := store_error hstore
            exact ⟨error, rfl⟩
          | ok taken' => exact ih hoptions.2 hrest hvalues taken'
      · obtain ⟨arg, rest, rfl, hnot⟩ := classify_of_not_plain hvalue hothers
        exact ⟨_, consume_option_of_not_plain hnot taken rest⟩

/-- A value that looks like an option is never taken, whatever else is on the command line. -/
theorem parseArgs_of_not_plain (hoptions : ∀ entry ∈ values, entry.1 ∈ p.options)
    (hplain : ∃ entry ∈ values, ¬ Plain p.options entry.2) (initial : ν) :
    ∃ error, parseArgs p initial (render values) = .error (.usage error) := by
  unfold parseArgs
  cases hargs : classify p.options (render values) with
  | error e =>
    obtain ⟨error, rfl⟩ := classify_error hargs
    exact ⟨error, rfl⟩
  | ok args =>
    obtain ⟨error, herror⟩ := consume_of_not_plain hoptions hplain hargs initial
    show ∃ error, (consume p initial args >>= _) = _
    rw [herror]
    exact ⟨error, rfl⟩

end

end Python.Argparse
