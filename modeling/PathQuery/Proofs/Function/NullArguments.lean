import Mathlib.Data.List.Basic
import PathQuery.Standard

namespace PathQuery

/-- The function whose argument an error is about. -/
def EvalError.function? : EvalError → Option String
  | badArgument name _ => some name
  | badPattern name => some name
  | failed _ => none
  | malformed => none

namespace Library

/-- What an argument has to be. -/
inductive Parameter
  | any
  | number
  | string
  | array
  | object
  /-- An array of numbers. -/
  | numbers
  /-- A string that is a regular expression. -/
  | pattern

/-- Whether a value can be given for a parameter. What a regular expression is, its reader says. -/
def Parameter.admits (r : Readers) : Parameter → Value → Bool
  | any, _ => true
  | number, v => v.isNumber
  | string, v => v.isString
  | array, v => v.isArray
  | object, v => v.isObject
  | numbers, v => v.isArray && v.elements.all Value.isNumber
  | pattern, v => v.asString?.any fun s => r.isPattern s false

/-- The arguments that the built-in function of that name takes, in each of the ways in which it can be called. -/
def signatures : String → List (List Parameter)
  | "abs" | "ceil" | "floor" => [[.number]]
  | "avg" | "max" | "min" | "prod" | "sum" => [[.numbers]]
  | "contains" => [[.array, .any], [.string, .string]]
  | "ends_with" | "starts_with" => [[.string, .string]]
  | "keys" => [[.object]]
  | "length" => [[.array], [.object], [.string]]
  | "to_number" => [[.number], [.string]]
  | "tokenize" => [[.string, .pattern]]
  | _ => []

def admitsAll (r : Readers) : List Parameter → List Value → Bool
  | [], [] => true
  | p :: ps, v :: vs => p.admits r v && admitsAll r ps vs
  | _, _ => false

/-- The arguments have the types that the function of that name takes. -/
def takes (r : Readers) (name : String) (args : List Value) : Bool := (signatures name).any (admitsAll r · args)

/-- The answer of a function to arguments without `null`: a value if it takes them, and otherwise an error that names
it. -/
def Judges (r : Readers) (name : String) (args : List Value) (answer : Result) : Prop :=
  if takes r name args then ∃ v, answer = .ok v else ∃ e, answer = .error e ∧ e.function? = some name

/-- The answer that has `null` for `null`. -/
def Spreads (r : Readers) (name : String) (args : List Value) (answer : Result) : Prop :=
  (.null ∈ args → answer = .ok .null) ∧ (.null ∉ args → Judges r name args answer)

variable {r : Readers} {name : String} {p q : Parameter}

theorem takes_one (hs : signatures name = [[p]]) (v : Value) : takes r name [v] = p.admits r v := by
  simp [takes, hs, admitsAll]

theorem takes_two (hs : signatures name = [[p, q]]) (v w : Value) :
    takes r name [v, w] = (p.admits r v && q.admits r w) := by
  simp [takes, hs, admitsAll]

theorem Judges.accepted {args : List Value} (h : takes r name args = true) (v : Value) :
    Judges r name args (.ok v) := by
  rw [Judges, if_pos h]
  exact ⟨v, rfl⟩

theorem Judges.refused {args : List Value} (h : takes r name args = false) {e : EvalError}
    (he : e.function? = some name) : Judges r name args (.error e) := by
  rw [Judges, h, if_neg (by simp)]
  exact ⟨e, rfl, he⟩

theorem spreads_null {args : List Value} (h : .null ∈ args) : Spreads r name args (.ok .null) :=
  ⟨fun _ => rfl, fun hn => absurd h hn⟩

theorem spreads_of_judges {args : List Value} {answer : Result} (h : .null ∉ args)
    (hj : Judges r name args answer) : Spreads r name args answer :=
  ⟨fun hn => absurd hn h, fun _ => hj⟩

theorem spreads_number (hs : signatures name = [[.number]]) (f : Number → Value) (v : Value) :
    Spreads r name [v] (onNumber name f v) := by
  have ht := takes_one (r := r) hs v
  cases v with
  | null => exact spreads_null (by simp)
  | number n => exact spreads_of_judges (by simp) (.accepted ht _)
  | _ => exact spreads_of_judges (by simp) (.refused ht rfl)

/-- Some values are taken for numbers just if all of them are. -/
theorem mapM_asNumber? (vs : List Value) : (vs.mapM Value.asNumber?).isSome = vs.all Value.isNumber := by
  induction vs with
  | nil => rfl
  | cons v vs ih =>
    rw [List.mapM_cons, List.all_cons, ← ih]
    cases v <;> cases vs.mapM Value.asNumber? <;> rfl

theorem spreads_numbers (hs : signatures name = [[.numbers]]) (f : List Number → Value) (v : Value) :
    Spreads r name [v] (onNumbers name f v) := by
  have ht := takes_one (r := r) hs v
  cases v with
  | null => exact spreads_null (by simp)
  | array vs =>
    refine spreads_of_judges (by simp) ?_
    have hall : takes r name [.array vs] = (vs.mapM Value.asNumber?).isSome := ht.trans (mapM_asNumber? vs).symm
    rw [onNumbers]
    cases hn : vs.mapM Value.asNumber? with
    | some ns => exact .accepted (by rw [hall, hn]; rfl) _
    | none => exact .refused (by rw [hall, hn]; rfl) rfl
  | _ => exact spreads_of_judges (by simp) (.refused ht rfl)

/-- Whichever of two arguments is `null`, and whatever the other is. -/
theorem spreads_strings (hs : signatures name = [[.string, q]]) (hq : ∀ v, q.admits r v = true → v.isString = true)
    {f : String → String → Result} (hf : ∀ s t, Judges r name [.string s, .string t] (f s t)) (v w : Value) :
    Spreads r name [v, w] (onStrings name f v w) := by
  have ht := takes_two (r := r) hs v w
  have hw : w.isString = false → takes r name [v, w] = false := by
    intro hw
    rw [ht, Bool.and_eq_false_iff]
    right
    cases hadmits : q.admits r w with
    | false => rfl
    | true => rw [hq w hadmits] at hw; cases hw
  cases v with
  | null => exact spreads_null (by simp)
  | string s =>
    cases w with
    | null => exact spreads_null (by simp)
    | string t => exact spreads_of_judges (by simp) (hf s t)
    | _ => exact spreads_of_judges (by simp) (.refused (hw rfl) rfl)
  | _ =>
    cases w with
    | null => exact spreads_null (by simp)
    | _ => exact spreads_of_judges (by simp) (.refused ht rfl)

theorem spreads_keys (v : Value) : Spreads r "keys" [v] (keys v) := by
  have ht : takes r "keys" [v] = Parameter.object.admits r v := takes_one rfl v
  cases v with
  | null => exact spreads_null (by simp)
  | object ms => exact spreads_of_judges (by simp) (.accepted ht _)
  | _ => exact spreads_of_judges (by simp) (.refused ht rfl)

theorem spreads_length (v : Value) : Spreads r "length" [v] (length v) := by
  cases v with
  | null => exact spreads_null (by simp)
  | array | object | string => exact spreads_of_judges (by simp) (.accepted rfl _)
  | _ => exact spreads_of_judges (by simp) (.refused rfl rfl)

theorem spreads_toNumber (v : Value) : Spreads r "to_number" [v] (toNumber v) := by
  cases v with
  | null => exact spreads_null (by simp)
  | number | string => exact spreads_of_judges (by simp) (.accepted rfl _)
  | _ => exact spreads_of_judges (by simp) (.refused rfl rfl)

theorem spreads_tokenize (v w : Value) : Spreads r "tokenize" [v, w] (tokenize r v w) := by
  refine spreads_strings (q := .pattern) rfl ?_ ?_ v w
  · intro w hw
    cases w <;> first | rfl | cases hw
  · intro s t
    have ht : takes r "tokenize" [.string s, .string t] = r.isPattern t false :=
      (takes_two (p := .string) (q := .pattern) rfl _ _).trans rfl
    cases hp : r.pattern t false with
    | ok p => exact .accepted (by rw [ht, Readers.isPattern, hp]; rfl) _
    | error message => exact .refused (by rw [ht, Readers.isPattern, hp]; rfl) rfl

/-- An affix is looked for in every string. -/
theorem spreads_affix (hs : signatures name = [[.string, .string]]) (f : String → String → Value) (v w : Value) :
    Spreads r name [v, w] (onStrings name (fun s t => .ok (f s t)) v w) :=
  spreads_strings hs (fun _ h => h) (fun _ _ => .accepted (takes_two hs _ _) _) v w

/-- `null` is sought in a value that is neither `null` nor a string. -/
def SeeksNull (name : String) (args : List Value) : Prop :=
  name = "contains" ∧ ∃ v, args = [v, .null] ∧ v.isNull = false ∧ v.isString = false

/-- Looking for `null`, `contains` asks first what it is to look into. -/
theorem contains_null (v : Value) (hn : v.isNull = false) (hs : v.isString = false) : contains v .null =
    if v.isArray then .ok (.bool (v.elements.any Value.isNull))
    else .error (.badArgument "contains" "expected an array or two strings") := by
  cases v with
  | null => cases hn
  | string s => cases hs
  | array vs =>
    have heq : ∀ w : Value, w.equals .null = w.isNull := by
      intro w
      cases w <;> rfl
    simp only [contains, heq]
    rfl
  | _ => rfl

theorem spreads_contains (v w : Value) (h : ¬SeeksNull "contains" [v, w]) :
    Spreads r "contains" [v, w] (contains v w) := by
  cases w with
  | null =>
    cases v with
    | null | string => exact spreads_null (by simp)
    | _ => exact absurd ⟨rfl, _, rfl, rfl, rfl⟩ h
  | string t =>
    cases v with
    | null => exact spreads_null (by simp)
    | array | string => exact spreads_of_judges (by simp) (.accepted rfl _)
    | _ => exact spreads_of_judges (by simp) (.refused rfl rfl)
  | _ =>
    cases v with
    | null => exact spreads_null (by simp)
    | array => exact spreads_of_judges (by simp) (.accepted rfl _)
    | _ => exact spreads_of_judges (by simp) (.refused rfl rfl)

theorem spreads_unary {g : Value → Result} (h : ∀ v, Spreads r name [v] (g v)) {args : List Value}
    (ha : (unary name g).accepts args.length = true) : Spreads r name args ((unary name g).body args) := by
  obtain ⟨v, rfl⟩ := List.length_eq_one_iff.1 (eq_of_beq ha).symm
  exact h v

theorem spreads_binary {g : Value → Value → Result} {args : List Value}
    (h : ∀ v w, args = [v, w] → Spreads r name [v, w] (g v w)) (ha : (binary name g).accepts args.length = true) :
    Spreads r name args ((binary name g).body args) := by
  obtain ⟨v, w, rfl⟩ := List.length_eq_two.1 (eq_of_beq ha).symm
  exact h v w rfl

variable {f : Function} {args : List Value}

theorem spreads_body (hf : f ∈ functions r) (ha : f.accepts args.length = true) (hs : ¬SeeksNull f.name args) :
    Spreads r f.name args (f.body args) := by
  simp only [functions, List.mem_cons, List.not_mem_nil, or_false] at hf
  rcases hf with rfl | rfl | rfl | rfl | rfl | rfl | rfl | rfl | rfl | rfl | rfl | rfl | rfl | rfl | rfl
  · exact spreads_unary (spreads_number rfl _) ha
  · exact spreads_unary (spreads_numbers rfl _) ha
  · exact spreads_unary (spreads_number rfl _) ha
  · refine spreads_binary (fun v w hargs => spreads_contains v w ?_) ha
    rwa [← hargs]
  · exact spreads_binary (fun v w _ => spreads_affix rfl _ v w) ha
  · exact spreads_unary (spreads_number rfl _) ha
  · exact spreads_unary spreads_keys ha
  · exact spreads_unary spreads_length ha
  · exact spreads_unary (spreads_numbers rfl _) ha
  · exact spreads_unary (spreads_numbers rfl _) ha
  · exact spreads_unary (spreads_numbers rfl _) ha
  · exact spreads_binary (fun v w _ => spreads_affix rfl _ v w) ha
  · exact spreads_unary (spreads_numbers rfl _) ha
  · exact spreads_unary spreads_toNumber ha
  · exact spreads_binary (fun v w _ => spreads_tokenize v w) ha

/-- Only one built-in function is called `contains`. -/
theorem body_of_seeksNull (hf : f ∈ functions r) {v : Value} (hn : f.name = "contains") :
    f.body [v, .null] = contains v .null := by
  simp only [functions, List.mem_cons, List.not_mem_nil, or_false] at hf
  rcases hf with rfl | rfl | rfl | rfl | rfl | rfl | rfl | rfl | rfl | rfl | rfl | rfl | rfl | rfl | rfl
  all_goals first | rfl | exact absurd hn (by simp [unary, binary])

/-- A built-in function answers `null` if an argument is `null`, unless `null` is sought in a value that is neither
`null` nor a string: in an array this asks for an element that is `null`, and in any other value it is an error. Without
`null` among the arguments it answers just if they have the types that it takes, and otherwise fails with an error that
names it. -/
theorem null_arguments_answered (hf : f ∈ functions r) (ha : f.accepts args.length = true) :
    (.null ∈ args → (f.body args = .ok .null ↔ ¬SeeksNull f.name args)) ∧
      (∀ v, args = [v, .null] → SeeksNull f.name args → f.body args =
        if v.isArray then .ok (.bool (v.elements.any Value.isNull))
        else .error (.badArgument f.name "expected an array or two strings")) ∧
      (.null ∉ args → takes r f.name args = true → ∃ v, f.body args = .ok v) ∧
      (.null ∉ args → takes r f.name args = false → ∃ e, f.body args = .error e ∧ e.function? = some f.name) := by
  have hseeks : ∀ v, args = [v, .null] → SeeksNull f.name args → f.body args =
      if v.isArray then .ok (.bool (v.elements.any Value.isNull))
      else .error (.badArgument f.name "expected an array or two strings") := by
    rintro v rfl ⟨hname, w, hw, hnull, hstring⟩
    obtain rfl : v = w := (List.cons.inj hw).1
    rw [body_of_seeksNull hf hname, contains_null v hnull hstring, hname]
  have hjudges : .null ∉ args → Judges r f.name args (f.body args) := by
    intro hnot
    refine (spreads_body hf ha ?_).2 hnot
    rintro ⟨-, v, rfl, -⟩
    simp at hnot
  refine ⟨fun hnull => ⟨?_, fun hs => (spreads_body hf ha hs).1 hnull⟩, hseeks, fun hnot ht => ?_, fun hnot ht => ?_⟩
  · rintro hbody hs
    obtain ⟨v, hv, -⟩ := hs.2
    have hanswer := hseeks v hv hs
    rw [hbody] at hanswer
    split at hanswer <;> cases hanswer
  · have hj := hjudges hnot
    rwa [Judges, if_pos ht] at hj
  · have hj := hjudges hnot
    rwa [Judges, ht, if_neg (by simp)] at hj

/-- `null` beside a number, and a string that is no regular expression. -/
theorem null_arguments_answered_tokenize :
    let f := binary "tokenize" (tokenize .standard)
    let args : List Value := [.ofInt 5, .null]
    let args' : List Value := [.string "a", .string "("]
    (f ∈ functions .standard ∧ f.accepts args.length = true ∧ f.accepts args'.length = true ∧ .null ∈ args ∧
        .null ∉ args') ∧
      f.body args = .ok .null ∧ takes .standard f.name args' = false ∧
      ∃ e, f.body args' = .error e ∧ e.function? = some "tokenize" := by
  intro f args args'
  have hf : f ∈ functions .standard := by simp [functions, f]
  have hnull : .null ∈ args := by simp [args]
  have hnot : .null ∉ args' := by simp [args']
  have hseeks : ¬SeeksNull f.name args := fun hs => absurd hs.1 (by decide)
  have htakes : takes .standard f.name args' = false := by decide
  have hbody := ((null_arguments_answered hf rfl).1 hnull).2 hseeks
  exact ⟨⟨hf, rfl, rfl, hnull, hnot⟩, hbody, htakes, (null_arguments_answered hf rfl).2.2.2 hnot htakes⟩

/-- A number does not contain `null`, nor does it lack it. -/
theorem contains_refuses_null :
    let f := binary "contains" contains
    let args : List Value := [.ofInt 5, .null]
    f ∈ functions .standard ∧ f.accepts args.length = true ∧ .null ∈ args ∧
      f.body args = .error (.badArgument "contains" "expected an array or two strings") := by
  intro f args
  exact ⟨by simp [functions, f], rfl, by simp [args], rfl⟩

end Library

end PathQuery
