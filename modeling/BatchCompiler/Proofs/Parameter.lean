/-
# BatchCompiler.Proofs.Parameter -- when a parameter reads the argument that was passed for it

A call hands the words behind its label to the routine: the name of the variable for the result, and
the arguments. The shell gives a routine these words by their number, which has one digit: `%~1` is the
first word behind the label, and in `%~10` the zero is a character of its own. It gives it the words of
its own call only, not those of the call of a function around it.

A parameter is bound to the number of its word and read by that number alone, whatever its digits and
wherever it is read. `parameter_reads_argument_iff` says exactly when this gives the argument that the
calls of the script pass: for the first eight parameters, in the body of the function itself.
`ninth_parameter_reads_result_name` is a function with nine.
-/

import BatchCompiler.Proofs.Audit
import BatchCompiler.Proofs.Effect

namespace BatchCompiler

open Gen

/-! ## Words of a call -/

/-- A call of a routine. -/
structure Call where
  callee : Text
  result : Name
  args : List Argument

/-- The line of the call. -/
def Call.line (c : Call) : Line := .call c.callee c.result c.args

/-- The words of the line, from the label on. -/
def Call.words (c : Call) : List String :=
  c.callee.render :: c.result.render :: c.args.map Argument.render

/-- The words stand on the line with blanks between them. -/
theorem Call.render_line (c : Call) : c.line.render = "call :" ++ " ".intercalate c.words := by
  have hblanks : ∀ (first : String) (words : List String),
      " ".intercalate (first :: words) = first ++ String.join (words.map (" " ++ ·)) := by
    intro first words
    induction words generalizing first with
    | nil => simp
    | cons word words ih =>
      rw [String.intercalate_cons_cons, ih]
      simp [String.append_assoc]
  show "call :" ++ c.callee.render ++ " " ++ c.result.render ++
    String.join (c.args.map fun a => " " ++ a.render) = _
  rw [words, hblanks]
  simp [String.append_assoc, Function.comp_def]

/-- What the shell makes of a text that starts with a positional reference: the word of the call whose
number is the one digit behind `%~`, and the characters behind the digit as they are. -/
def Call.expand? (c : Call) (text : String) : Option (String × String) :=
  match text.toList with
  | '%' :: '~' :: digit :: rest =>
    if digit.isDigit then c.words[digit.toNat - 48]?.map (·, String.ofList rest) else none
  | _ => none

/-- A read of the word with this number, as it is spelled. -/
abbrev slotText (number : Nat) : String := (Fragment.argument number).render

/-- A number of one digit stands for the word of that number. -/
theorem Call.expand?_of_lt_ten (c : Call) {number : Nat} (h : number < 10) :
    c.expand? (slotText number) = c.words[number]?.map (·, "") := by
  have hdigits : Nat.toDigits 10 number = [Nat.digitChar number] := Nat.toDigits_of_lt_base h
  have hchars : (slotText number).toList = ['%', '~', Nat.digitChar number] := by
    simp [slotText, Fragment.render, hdigits]
  have hdigit : (Nat.digitChar number).isDigit = true :=
    isDigit_of_mem_digits (n := number) (by simp [hdigits])
  have hvalue : (Nat.digitChar number).toNat - 48 = number := by
    rw [Nat.toNat_digitChar_of_lt_ten h]
    omega
  simp [expand?, hchars, hdigit, hvalue]

/-- A number of more digits stands for some word with characters behind it. -/
theorem Call.expand?_of_ten_le (c : Call) {number : Nat} (h : 10 ≤ number) (word : String) :
    c.expand? (slotText number) ≠ some (word, "") := by
  obtain ⟨first, more, hfirst⟩ :=
    List.exists_cons_of_ne_nil (Nat.toDigits_ne_nil (n := number / 10) (b := 10))
  have hchars : (slotText number).toList =
      '%' :: '~' :: first :: (more ++ [Nat.digitChar (number % 10)]) := by
    simp [slotText, Fragment.render, Nat.toDigits_of_base_le (by decide) h, hfirst]
  have hrest : String.ofList (more ++ [Nat.digitChar (number % 10)]) ≠ "" := by
    intro hempty
    have hlist := congrArg String.toList hempty
    simp at hlist
  intro hexpand
  simp only [expand?, hchars] at hexpand
  split at hexpand
  · obtain ⟨w, -, hw⟩ := Option.map_eq_some_iff.1 hexpand
    exact hrest (congrArg Prod.snd hw)
  · cases hexpand

/-! ## Calls of the script -/

/-- The call that the line is. -/
def Line.call? : Line → Option Call
  | call callee result args => some ⟨callee, result, args⟩
  | _ => none

/-- The calls of the script, in the order of its code. -/
def State.calls (s : State) : List Call := s.segments.code.filterMap Line.call?

theorem State.line_mem_code {s : State} {c : Call} (h : c ∈ s.calls) :
    c.line ∈ s.segments.code := by
  obtain ⟨line, hmem, hcall⟩ := List.mem_filterMap.1 h
  cases line with
  | call callee result args =>
    cases hcall
    exact hmem
  | _ => cases hcall

/-- The node calls a function. -/
def Node.isCall (n : Node) : Bool := n.construct = .call

/-- The call is the one for the node: it calls the value of the callee and passes the values of all the
arguments of the node, in their order. -/
inductive Call.IsOf (shared : Shared) : Call → Node → Prop where
  | intro {l : Nat} {callee : Node} {nodes : List Node} {f : Operand} {x : Name}
      {args : List Argument} :
    f.IsReadBy 0 shared callee → List.Forall₂ (Argument.Passes shared) nodes args →
      IsOf shared ⟨f.splice, x, args⟩ (.call l callee nodes)

theorem Line.IsQuiet.call?_eq_none {shared : Shared} {line : Line} (h : line.IsQuiet shared) :
    line.call? = none := by
  cases line with
  | call callee result args => exact h.elim
  | _ => rfl

/-- The calls among the lines are those for the nodes that call, one by one. -/
theorem Performs.calls {shared : Shared} {lines : List Line} {ns : List Node}
    (h : Performs shared lines ns) :
    List.Forall₂ (Call.IsOf shared) (lines.filterMap Line.call?) (ns.filter Node.isCall) := by
  induction h with
  | nil => exact .nil
  | quiet hline _ ih =>
    rw [List.filterMap_cons_none hline.call?_eq_none]
    exact ih
  | call hf _ hargs _ ih => exact .cons (.intro hf hargs) ih
  | assign _ _ _ _ ih => exact ih
  | assignNumber _ _ _ _ ih => exact ih
  | step _ _ _ _ _ ih => exact ih

/-- The calls of a script are those for the nodes of the program that call, in the order of
evaluation. -/
theorem Audit.IsOf.calls {c : Audit} {files : String → Except IoError String} {options : Options}
    {source script : String} (h : c.IsOf files options source script) :
    List.Forall₂ (Call.IsOf c.state.shared) c.state.calls
      ((options.evaluation files source).filter Node.isCall) := by
  obtain ⟨program, hread, hgenerate⟩ := h.generated
  let setup : Setup :=
    { registry := .standard, files, folding := options.folding, limit := options.limit }
  have hscopes : ({} : State).WellScoped := .initial
  have heffects : Effects (setup.evaluation options.limit options.base program) {} c.state :=
    Effect.of_generate rfl hscopes hgenerate
  obtain ⟨lines, hlines, hperforms⟩ := heffects.written
  have hnodes : options.evaluation files source =
      setup.evaluation options.limit options.base program := by
    simp [Options.evaluation, hread, setup]
  have hcalls := hperforms.calls
  have hboth : ∀ n : Node, (n.isCall && n.isEffect) = n.isCall := by
    intro n
    cases n <;> rfl
  rw [List.filter_filter] at hcalls
  simp only [hboth] at hcalls
  rw [hnodes, State.calls, hlines]
  exact hcalls

/-! ## Reads of parameters -/

/-- In the body that the call `inner` runs, the text stands for the argument at place `i` that the call
`outer` passes, and for nothing else. -/
def Call.Designates (inner outer : Call) (text : String) (i : Nat) : Prop :=
  ∃ arg, outer.args[i]? = some arg ∧ inner.expand? text = some (arg.render, "")

/-- In the body of a function, the text stands for the argument at place `i` that was passed to the
function `depth` functions further out, one with `count` parameters. This is so whatever the calls are
in which the functions around this place run, the innermost first. -/
def DesignatesArgument (text : String) (depth i count : Nat) : Prop :=
  ∀ calls : Nat → Call, (calls depth).args.length = count →
    (calls 0).Designates (calls depth) text i

/-- The number of a parameter's word gives the argument at the parameter's place exactly if the number
has one digit and the call that is running has the same word there. -/
theorem Call.designates_iff {inner outer : Call} {i : Nat} (hi : i < outer.args.length) :
    inner.Designates outer (slotText (i + 2)) i ↔
      i < 8 ∧ inner.args[i]?.map Argument.render = outer.args[i]?.map Argument.render := by
  obtain ⟨arg, harg⟩ : ∃ arg, outer.args[i]? = some arg := ⟨_, List.getElem?_eq_getElem hi⟩
  have hword : inner.words[i + 2]? = inner.args[i]?.map Argument.render := by simp [words]
  constructor
  · rintro ⟨found, hfound, hexpand⟩
    have hsmall : i < 8 := by
      by_contra hlarge
      exact inner.expand?_of_ten_le (by omega) _ hexpand
    refine ⟨hsmall, ?_⟩
    rw [inner.expand?_of_lt_ten (by omega), hword] at hexpand
    rw [hfound]
    simpa using hexpand
  · rintro ⟨hsmall, hsame⟩
    refine ⟨arg, harg, ?_⟩
    rw [inner.expand?_of_lt_ten (by omega), hword, hsame, harg]
    rfl

/-- The number of a parameter's word gives its argument exactly if the number has one digit and the
parameter is one of the function in whose body it is read. -/
theorem designatesArgument_iff {depth i count : Nat} (hi : i < count) :
    DesignatesArgument (slotText (i + 2)) depth i count ↔ depth = 0 ∧ i < 8 := by
  constructor
  · intro h
    -- A call with arguments, within one without.
    let full : Call := ⟨[], .temp 1, List.replicate count (.bare [.chars "a"])⟩
    let empty : Call := ⟨[], .temp 1, []⟩
    have hfull : full.args.length = count := List.length_replicate
    obtain ⟨hsmall, -⟩ := (Call.designates_iff (hfull.symm ▸ hi)).1 (h (fun _ => full) hfull)
    refine ⟨?_, hsmall⟩
    by_contra hdepth
    have hcalls := h (fun n => if n = 0 then empty else full) (by simpa [hdepth] using hfull)
    rw [if_pos rfl, if_neg hdepth, Call.designates_iff (hfull.symm ▸ hi)] at hcalls
    have hsame := hcalls.2
    simp [empty, full, hi] at hsame
  · rintro ⟨rfl, hsmall⟩ calls hcount
    exact (Call.designates_iff (hcount.symm ▸ hi)).2 ⟨hsmall, rfl⟩

namespace Record.Describes

variable {params : List String} {k : String} {r : Record} {v : Variable}

/-- A name that was bound as a parameter stands for the argument whose number is two more than the
place of the parameter. -/
theorem eq_slot {others : List String} {i : Nat} (h : r.Describes params k v)
    (horigin : r.origin = .parameter others i) :
    others = params ∧ others[i]? = some k ∧ v = .slot (i + 2) .text := by
  obtain ⟨hdeclares, -⟩ := h
  rw [horigin] at hdeclares
  cases hdeclares with
  | parameter hi => exact ⟨rfl, hi, rfl⟩

/-- Only parameters stand for arguments. -/
theorem exists_parameter {number : Nat} (h : r.Describes params k v)
    (hslot : v.storage = .slot number) : ∃ i, r.origin = .parameter params i := by
  obtain ⟨origin, later⟩ := r
  obtain ⟨hdeclares, -⟩ := h
  cases hdeclares with
  | @parameter i _ => exact ⟨i, rfl⟩
  | function | builtin | assignment => simp [Variable.named] at hslot

end Record.Describes

/-! ## Whole compilations -/

/-- A parameter reads the argument that was passed for it exactly if it is one of the first eight and
is read in the body of its own function.

Every compilation that succeeds can be audited, with a log of the reads of names to which all
references to arguments in the script belong. In every audit the calls of the script are those for the
nodes that call: each passes the values of the arguments of its node, one by one, and its line has its
words on it with blanks between them. Wherever a name is read, it stands for an argument exactly if it
was bound as a parameter of a function of the program. The texts that are put on a line for it then
designate the argument at the parameter's place in all calls with as many arguments as there are
parameters, exactly under that condition. In particular this is so of the calls of the script: a read
in the body of the function itself designates the argument of each such call exactly if the parameter
is one of the first eight, and a read in a function inside of it only if the call that is running
happens to have the same word there. -/
theorem parameter_reads_argument_iff (files : String → Except IoError String) (options : Options)
    (source script : String) (hcompile : compileSource files options source = .ok script) :
    (∃ c : Audit, c.IsOf files options source script ∧ Covers c.log c.state.segments.code) ∧
    ∀ c : Audit, c.IsOf files options source script →
      List.Forall₂ (Call.IsOf c.state.shared) c.state.calls
        ((options.evaluation files source).filter Node.isCall) ∧
      (∀ call ∈ c.state.calls, call.line ∈ c.state.segments.code ∧
        call.line.render = "call :" ++ " ".intercalate call.words) ∧
      ∀ k v d r, .read k v d r ∈ c.log →
        ((∃ number, v.storage = .slot number) ↔ ∃ params i, r.origin = .parameter params i) ∧
        ∀ params i, r.origin = .parameter params i →
          params[i]? = some k ∧
          (∃ l name body, .function l name params body ∈ options.evaluation files source) ∧
          ∀ text ∈ [(Operand.var v).splice.render, (Operand.var v).spliceNow.render],
            (DesignatesArgument text d i params.length ↔ d = 0 ∧ i < 8) ∧
            (∀ call ∈ c.state.calls, call.args.length = params.length →
              (call.Designates call text i ↔ i < 8)) ∧
            ∀ inner ∈ c.state.calls, ∀ outer ∈ c.state.calls, outer.args.length = params.length →
              (inner.Designates outer text i ↔
                i < 8 ∧ inner.args[i]?.map Argument.render = outer.args[i]?.map Argument.render) := by
  refine ⟨exists_audit hcompile, fun c hc => ⟨hc.calls, ?_, fun k v d r hread => ?_⟩⟩
  · exact fun call hcall => ⟨State.line_mem_code hcall, call.render_line⟩
  obtain ⟨params, hr, hknown⟩ := hc.read hread
  refine ⟨⟨?_, ?_⟩, ?_⟩
  · rintro ⟨number, hslot⟩
    exact ⟨params, hr.exists_parameter hslot⟩
  · rintro ⟨others, i, horigin⟩
    obtain ⟨-, -, rfl⟩ := hr.eq_slot horigin
    exact ⟨i + 2, rfl⟩
  · intro others i horigin
    obtain ⟨rfl, hi, rfl⟩ := hr.eq_slot horigin
    obtain ⟨hlt, -⟩ := List.getElem?_eq_some_iff.1 hi
    refine ⟨hi, hknown.resolve_left ?_, ?_⟩
    · rintro rfl
      simp at hi
    · intro text htext
      -- Both ways of reading an argument are spelled the same.
      obtain rfl : text = slotText (i + 2) := by
        simpa [Operand.splice, Operand.spliceNow, Variable.slot, Variable.read, Variable.readNow]
          using htext
      refine ⟨designatesArgument_iff hlt, fun call _ hcount => ?_, fun inner _ outer _ hcount => ?_⟩
      · rw [Call.designates_iff (hcount.symm ▸ hlt)]
        exact and_iff_left rfl
      · exact Call.designates_iff (hcount.symm ▸ hlt)

/-- A source in which a parameter is read in a function inside of its own. -/
def capturingSource : String :=
  "func f(a, b) \x7b func g(c) \x7b return a + c; \x7d return g(b); \x7d f(1, \"x\");"

theorem capturing_source_reads_argument_iff :
    ∃ (script : String) (c : Audit),
      compileSource (fun _ => .error .notFound) {} capturingSource = .ok script ∧
      c.IsOf (fun _ => .error .notFound) {} capturingSource script ∧
      Covers c.log c.state.segments.code ∧
      List.Forall₂ (Call.IsOf c.state.shared) c.state.calls
        ((Options.evaluation {} (fun _ => .error .notFound) capturingSource).filter Node.isCall) ∧
      (∀ call ∈ c.state.calls, call.line ∈ c.state.segments.code ∧
        call.line.render = "call :" ++ " ".intercalate call.words) ∧
      ∀ k v d r params i, .read k v d r ∈ c.log → r.origin = .parameter params i →
        ∀ text ∈ [(Operand.var v).splice.render, (Operand.var v).spliceNow.render],
          (DesignatesArgument text d i params.length ↔ d = 0 ∧ i < 8) ∧
          ∀ call ∈ c.state.calls, call.args.length = params.length →
            (call.Designates call text i ↔ i < 8) := by
  obtain ⟨script, hcompile⟩ : ∃ script,
      compileSource (fun _ => .error .notFound) {} capturingSource = .ok script :=
    exists_script (by decide +kernel)
  obtain ⟨⟨c, hc, hcovers⟩, hreads⟩ :=
    parameter_reads_argument_iff _ {} capturingSource script hcompile
  refine ⟨script, c, hcompile, hc, hcovers, (hreads c hc).1, (hreads c hc).2.1, ?_⟩
  intro k v d r params i hread horigin text htext
  obtain ⟨hall, hcalls, -⟩ := (((hreads c hc).2.2 k v d r hread).2 params i horigin).2.2 text htext
  exact ⟨hall, hcalls⟩

/-- The parameters of a function with nine. -/
def nineParams : List String := ["a", "b", "c", "d", "e", "g", "h", "i", "j"]

/-- A source in which a function returns the last of its nine parameters. -/
def nineSource : String :=
  "func f(a, b, c, d, e, g, h, i, j) \x7b return j; \x7d f(1, 2, 3, 4, 5, 6, 7, 8, 9);"

/-- The call in `nineSource`. -/
def nineCall : Call where
  callee := [.deferred (.user "f")]
  result := .temp 1
  args := [1, 2, 3, 4, 5, 6, 7, 8, 9].map fun n => .bare [.number n]

/-- The state in which the compilation of `nineSource` ends. -/
def nineState : State :=
  { segments :=
      { init := [.echoOff, .deferExpansion]
        decl := [.handle (.user "f")]
        code := [.goto (.behind (.user "f")), .label (.entry (.user "f")), .enterFunction,
          .openReturn, .setResult false [.argument 10], .close, .leaveFunction,
          .label (.behind (.user "f")), nineCall.line] }
    scopes := { root := [("f", .named (.user "f") .text)] }
    shared := { counters := { temps := 1 } } }

theorem state?_nineSource :
    Options.state? {} (fun _ => .error .notFound) nineSource = some nineState := by
  decide +kernel

/-- The audit of `nineSource`. -/
def nineAudit : Audit :=
  { state := nineState
    ledger := [{ records := [("f", { origin := .function })] }]
    log := [.read "j" (.slot 10 .text) 0 { origin := .parameter nineParams 8 },
      .function nineParams, .read "f" (.named (.user "f") .text) 0 { origin := .function }] }

theorem nineAudit_isOf :
    nineAudit.IsOf (fun _ => .error .notFound) {} nineSource nineState.script := by
  obtain ⟨program, hread, hgenerate, -⟩ := Options.state?_eq_some state?_nineSource
  refine ⟨?_, ⟨program, hread, hgenerate⟩, rfl, ⟨rfl, rfl⟩, by decide +kernel⟩
  let declared : State := State.declare "f" (.named (.user "f") .text) {}
  let body : State := declared.entering (.user "f") nineParams
  let returned : State :=
    body.emitAll [.openReturn, .setResult false [.argument 10], .close, .leaveFunction]
  let left : State := { returned with scopes := returned.scopes.leave }
  -- The function is entered, its last parameter is read, it is left, and then it is called.
  have hname : functionName 0 (some "f") {} = .ok (.user "f") declared := rfl
  have hinner : resolve .standard 0 "j" body = .ok (.slot 10 .text) body := rfl
  have houter : resolve .standard 0 "f" left = .ok (.named (.user "f") .text) left := rfl
  have hentered := (Relation.ReflTransGen.single (Audit.Step.enter [{}] [] [] nineParams hname)).tail
    (.read _ _ _ hinner rfl)
  have hleft := (hentered.tail (.idle (t := returned) _ _ _ _ rfl rfl rfl (by decide))).tail
    (.leave _ _ _ _ (List.cons_ne_nil _ _))
  refine (hleft.tail (.read _ _ _ houter rfl)).tail ?_
  exact .idle _ _ _ [.label (.behind (.user "f")), nineCall.line] rfl rfl rfl (by decide)

/-- In `nineSource` the ninth parameter does not read the ninth argument: its number is ten, and what
the shell makes of that is the name of the variable for the result, and a zero. -/
theorem ninth_parameter_reads_result_name :
    ∃ (script : String) (c : Audit),
      compileSource (fun _ => .error .notFound) {} nineSource = .ok script ∧
      c.IsOf (fun _ => .error .notFound) {} nineSource script ∧
      ∃ v, .read "j" v 0 { origin := .parameter nineParams 8 } ∈ c.log ∧
        .setResult false (Operand.var v).spliceNow ∈ c.state.segments.code ∧
        nineCall.line ∈ c.state.segments.code ∧ nineCall.args.length = nineParams.length ∧
        nineCall.args[8]? = some (.bare [.number 9]) ∧
        nineCall.expand? (Operand.var v).spliceNow.render = some (nineCall.result.render, "0") := by
  obtain ⟨-, -, -, hcompile⟩ := Options.state?_eq_some state?_nineSource
  refine ⟨_, nineAudit, hcompile, nineAudit_isOf, .slot 10 .text, ?_, ?_, ?_, rfl, rfl, ?_⟩
  · exact List.mem_cons_self
  · decide
  · decide
  · decide

end BatchCompiler
