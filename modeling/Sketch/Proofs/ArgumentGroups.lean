import Mathlib.Data.List.Perm.Basic
import Sketch.CommandLine.Options

/-!
# Options in any order

The arguments after the name of a subcommand are read from left to right in groups: an option, which
takes its value along if it needs one, or the input path (`OptionGroup`). What the arguments ask for
is then told by their groups alone (`Options.ofGroups`): the input that is there, the last output,
the last settings, and whether more log lines are wanted.

`Options.options_of_groups` shows that arguments are accepted exactly if they are such groups with
at most one input, so that groups may be reordered as long as the outputs and the settings keep
their order. Arguments are refused for what stands where the first group is to be read that does
not fit.

The groups that were read so far are carried along: one more group is added to them
(`Options.addArguments_group`), and where none fits, the arguments are refused
(`Options.addArguments_misfit`).
-/

namespace Sketch

/-! ## Groups of arguments -/

namespace Argument

/-- The argument `a` asks for more log lines. -/
def IsVerbose (a : Argument) : Prop := a.text = ascii "-v" ∨ a.text = ascii "--verbose"

/-- The argument `a` announces a path to write to. -/
def IsOutput (a : Argument) : Prop := a.text = ascii "-o" ∨ a.text = ascii "--output"

/-- The argument `a` announces a path of settings. -/
def IsConfig (a : Argument) : Prop := a.text = ascii "-c" ∨ a.text = ascii "--config"

/-- The argument `a` may be the input: it is not empty and does not start with a minus sign. -/
def IsInput (a : Argument) : Prop := a.text ≠ [] ∧ a.text.head? ≠ some Byte.minus

variable {a : Argument}

/-- An argument that announces an output asks for no log lines, so `addArguments` does not take it
for one that does. -/
theorem IsOutput.not_isVerbose (h : a.IsOutput) : ¬ a.IsVerbose := by
  unfold IsVerbose
  rcases h with h | h <;> rw [h] <;> decide

/-- An argument that announces settings asks for no log lines. -/
theorem IsConfig.not_isVerbose (h : a.IsConfig) : ¬ a.IsVerbose := by
  unfold IsVerbose
  rcases h with h | h <;> rw [h] <;> decide

/-- An argument that announces settings announces no output. -/
theorem IsConfig.not_isOutput (h : a.IsConfig) : ¬ a.IsOutput := by
  unfold IsOutput
  rcases h with h | h <;> rw [h] <;> decide

/-- An argument that may be the input asks for no log lines, as those that do start with a minus
sign. -/
theorem IsInput.not_isVerbose (h : a.IsInput) : ¬ a.IsVerbose := by
  rintro (ha | ha) <;> exact h.2 (by rw [ha]; rfl)

/-- An argument that may be the input announces no output, as those that do start with a minus sign.
-/
theorem IsInput.not_isOutput (h : a.IsInput) : ¬ a.IsOutput := by
  rintro (ha | ha) <;> exact h.2 (by rw [ha]; rfl)

/-- An argument that may be the input announces no settings, as those that do start with a minus
sign. -/
theorem IsInput.not_isConfig (h : a.IsInput) : ¬ a.IsConfig := by
  rintro (ha | ha) <;> exact h.2 (by rw [ha]; rfl)

end Argument

/-- Arguments that belong together. The value of an option is the argument after it, whatever that
looks like. -/
inductive OptionGroup where
  | verbose (flag : Argument) (isVerbose : flag.IsVerbose)
  | output (flag value : Argument) (isOutput : flag.IsOutput)
  | config (flag value : Argument) (isConfig : flag.IsConfig)
  | input (path : Argument) (isInput : path.IsInput)

namespace OptionGroup

/-- The arguments of a group, in order. -/
def arguments : OptionGroup → List Argument
  | verbose flag _ => [flag]
  | output flag value _ => [flag, value]
  | config flag value _ => [flag, value]
  | input path _ => [path]

/-- The group asks for more log lines. -/
def isVerbose : OptionGroup → Bool
  | verbose .. => true
  | output .. | config .. | input .. => false

/-- The path to write to, if the group gives one. -/
def output? : OptionGroup → Option Text
  | output _ value _ => some value.text
  | verbose .. | config .. | input .. => none

/-- The path of settings, if the group gives one. -/
def config? : OptionGroup → Option Text
  | config _ value _ => some value.text
  | verbose .. | output .. | input .. => none

/-- The path of the program, if the group is one. -/
def input? : OptionGroup → Option Text
  | input path _ => some path.text
  | verbose .. | output .. | config .. => none

/-- The arguments of all groups `gs`, in order. -/
def flatten (gs : List OptionGroup) : List Argument := gs.flatMap arguments

/-- The paths of programs among the groups `gs`, in order. -/
def inputs (gs : List OptionGroup) : List Text := gs.filterMap input?

/-- The paths to write to among the groups `gs`, in order. -/
def outputs (gs : List OptionGroup) : List Text := gs.filterMap output?

/-- The paths of settings among the groups `gs`, in order. -/
def configs (gs : List OptionGroup) : List Text := gs.filterMap config?

/-- There is at most one input among the groups `gs`. -/
def AtMostOneInput (gs : List OptionGroup) : Prop := (inputs gs).length ≤ 1

/-- The arguments `rest` are left after the groups `gs`, and they start with no group that may
follow these. -/
def NoGroupFits (gs : List OptionGroup) (rest : List Argument) : Prop :=
  rest ≠ [] ∧ ∀ g after, rest = g.arguments ++ after → ¬ AtMostOneInput (gs ++ [g])

/-- What is wrong with the arguments that are left after the groups `gs`, as the problem that
`addArguments` reports. -/
inductive Misfit (gs : List OptionGroup) : List Argument → OptionsProblem → Prop where
  | valueMissing {flag : Argument} : flag.IsOutput ∨ flag.IsConfig →
      Misfit gs [flag] (.valueMissing flag.text)
  | unknownOption {a : Argument} (after : List Argument) : ¬ a.IsInput → ¬ a.IsVerbose →
      ¬ a.IsOutput → ¬ a.IsConfig → Misfit gs (a :: after) (.unknownOption a.text)
  | secondInput {a : Argument} {first : Text} (after : List Argument) : a.IsInput →
      inputs gs = [first] → Misfit gs (a :: after) (.secondInput first a.text)

variable {gs gs' : List OptionGroup} {g : OptionGroup} {rest : List Argument}

/-- No input `path` among the groups `gs` is empty, so a first one is known by the options. -/
theorem ne_nil_of_mem_inputs {path : Text} (h : path ∈ inputs gs) : path ≠ [] := by
  obtain ⟨g, -, hg⟩ := List.mem_filterMap.mp h
  cases g with
  | input path hpath =>
    obtain rfl := Option.some.inj hg
    exact hpath.1
  | verbose | output | config => cases hg

/-- Some of the groups, `gs`, have no more inputs than all of them. -/
theorem AtMostOneInput.of_append (h : AtMostOneInput (gs ++ gs')) : AtMostOneInput gs := by
  rw [AtMostOneInput, inputs, List.filterMap_append, List.length_append] at h
  exact Nat.le_of_add_right_le h

/-- A group `g` that is no input may follow. -/
theorem AtMostOneInput.concat (h : AtMostOneInput gs) (hg : g.input? = none) :
    AtMostOneInput (gs ++ [g]) := by
  have hinputs : inputs (gs ++ [g]) = inputs gs := by
    simp [inputs, List.filterMap_append, hg]
  rwa [AtMostOneInput, hinputs]

/-- An input may follow groups `gs` exactly if there is none among them. -/
theorem atMostOneInput_concat_input {path : Argument} {isInput : path.IsInput} :
    AtMostOneInput (gs ++ [input path isInput]) ↔ inputs gs = [] := by
  simp [AtMostOneInput, inputs, List.filterMap_append, input?]

/-- Arguments `rest` start with a group that may follow `gs`, or something is wrong with them. -/
theorem exists_group_or_misfit (h : AtMostOneInput gs) (hrest : rest ≠ []) :
    (∃ g after, rest = g.arguments ++ after ∧ AtMostOneInput (gs ++ [g])) ∨
      ∃ e, Misfit gs rest e := by
  obtain ⟨a, after, rfl⟩ := List.exists_cons_of_ne_nil hrest
  -- The argument is looked at in the order in which the options are.
  by_cases hverbose : a.IsVerbose
  · exact .inl ⟨.verbose a hverbose, after, rfl, h.concat rfl⟩
  by_cases houtput : a.IsOutput
  · cases after with
    | nil => exact .inr ⟨_, .valueMissing (.inl houtput)⟩
    | cons value after => exact .inl ⟨.output a value houtput, after, rfl, h.concat rfl⟩
  by_cases hconfig : a.IsConfig
  · cases after with
    | nil => exact .inr ⟨_, .valueMissing (.inr hconfig)⟩
    | cons value after => exact .inl ⟨.config a value hconfig, after, rfl, h.concat rfl⟩
  by_cases hinput : a.IsInput
  · match hinputs : inputs gs, h with
    | [], _ => exact .inl ⟨.input a hinput, after, rfl, atMostOneInput_concat_input.mpr hinputs⟩
    | [first], _ => exact .inr ⟨_, .secondInput after hinput hinputs⟩
    | _ :: _ :: _, h => simp [AtMostOneInput, hinputs] at h
  · exact .inr ⟨_, .unknownOption after hinput hverbose houtput hconfig⟩

/-- Where something is wrong (`Misfit`) no group fits, so that the split into groups ends there. -/
theorem Misfit.noGroupFits {e : OptionsProblem} (h : Misfit gs rest e) : NoGroupFits gs rest := by
  cases h with
  | valueMissing hflag =>
    refine ⟨List.cons_ne_nil _ _, fun g after hrest _ => ?_⟩
    cases g with
    | verbose flag hverbose =>
      obtain ⟨rfl, -⟩ := List.cons.inj hrest
      exact hflag.elim (·.not_isVerbose hverbose) (·.not_isVerbose hverbose)
    | output | config => cases hrest
    | input path hinput =>
      obtain ⟨rfl, -⟩ := List.cons.inj hrest
      exact hflag.elim hinput.not_isOutput hinput.not_isConfig
  | unknownOption after hinput hverbose houtput hconfig =>
    refine ⟨List.cons_ne_nil _ _, fun g after hrest _ => ?_⟩
    cases g <;> obtain ⟨rfl, -⟩ := List.cons.inj hrest <;> contradiction
  -- Here a group of one input does fit what is left, and only the bound on inputs rules it out.
  | secondInput after hinput hinputs =>
    refine ⟨List.cons_ne_nil _ _, fun g after hrest hone => ?_⟩
    cases g with
    | verbose flag hverbose =>
      obtain ⟨rfl, -⟩ := List.cons.inj hrest
      exact hinput.not_isVerbose hverbose
    | output flag value houtput =>
      obtain ⟨rfl, -⟩ := List.cons.inj hrest
      exact hinput.not_isOutput houtput
    | config flag value hconfig =>
      obtain ⟨rfl, -⟩ := List.cons.inj hrest
      exact hinput.not_isConfig hconfig
    | input path hpath =>
      rw [atMostOneInput_concat_input, hinputs] at hone
      cases hone

/-- Arguments `rest` are groups, `more`, as far as these fit behind `gs`. What is left `after` them
is nothing, or something is wrong with it. -/
theorem exists_groups (h : AtMostOneInput gs) (rest : List Argument) :
    ∃ more after, rest = flatten more ++ after ∧ AtMostOneInput (gs ++ more) ∧
      (after = [] ∨ ∃ e, Misfit (gs ++ more) after e) := by
  induction hlength : rest.length using Nat.strongRecOn generalizing gs rest with
  | ind n ih =>
    by_cases hrest : rest = []
    · exact ⟨[], [], hrest, by simpa using h, .inl rfl⟩
    obtain ⟨g, after, rfl, hg⟩ | hmisfit := exists_group_or_misfit h hrest
    · have hshorter : after.length < n := by
        rw [← hlength, List.length_append]
        cases g <;> simp [arguments]
      obtain ⟨more, last, rfl, hmore, hlast⟩ := ih _ hshorter hg after rfl
      rw [List.append_assoc, List.singleton_append] at hmore hlast
      exact ⟨g :: more, last, by simp [flatten], hmore, hlast⟩
    · exact ⟨[], rest, rfl, by simpa using h, .inr (by simpa using hmisfit)⟩

end OptionGroup

/-! ## What groups ask for -/

namespace Options

open OptionGroup

variable {gs gs' : List OptionGroup} {g : OptionGroup} {rest : List Argument}

/-- The options that the groups `gs` give: the input, the last output, the last settings, and more
log lines if any group asks for them. -/
def ofGroups (gs : List OptionGroup) : Options where
  input := (inputs gs).head?.getD []
  output := (outputs gs).getLast?.getD []
  config := (configs gs).getLast?
  verbose := gs.any OptionGroup.isVerbose

/-- The order of groups does not matter, but for that of the outputs (`houtputs`) and that of the
settings (`hconfigs`). -/
theorem ofGroups_perm (h : gs.Perm gs') (hone : AtMostOneInput gs)
    (houtputs : outputs gs = outputs gs') (hconfigs : configs gs = configs gs') :
    AtMostOneInput gs' ∧ ofGroups gs = ofGroups gs' := by
  have hperm : (inputs gs).Perm (inputs gs') := h.filterMap _
  have hinputs : inputs gs = inputs gs' := by
    match hgs : inputs gs, hone with
    | [], _ => exact (List.nil_perm.mp (hgs ▸ hperm)).symm
    | [first], _ => exact (List.singleton_perm.mp (hgs ▸ hperm))
    | _ :: _ :: _, hone => simp [AtMostOneInput, hgs] at hone
  refine ⟨by rwa [AtMostOneInput, ← hinputs], ?_⟩
  rw [ofGroups, ofGroups, hinputs, houtputs, hconfigs, h.any_eq]

/-- What one more group `g` adds to the options of those before. -/
theorem ofGroups_concat (h : AtMostOneInput (gs ++ [g])) :
    ofGroups (gs ++ [g]) =
      match g with
      | .verbose .. => { ofGroups gs with verbose := true }
      | .output _ value _ => { ofGroups gs with output := value.text }
      | .config _ value _ => { ofGroups gs with config := some value.text }
      | .input path _ => { ofGroups gs with input := path.text } := by
  cases g with
  | verbose | output | config =>
    simp [ofGroups, inputs, outputs, configs, List.filterMap_append, input?, output?, config?,
      OptionGroup.isVerbose]
  | input path hpath =>
    have hnone := atMostOneInput_concat_input.mp h
    rw [inputs] at hnone
    simp [ofGroups, inputs, outputs, configs, List.filterMap_append, input?, output?, config?,
      OptionGroup.isVerbose, hnone]

variable {o : Options} {a value : Argument}

/-- An argument that asks for more log lines is taken alone, and `addArguments` goes on with the
`rest`. -/
theorem addArguments_verbose (h : a.IsVerbose) :
    o.addArguments (a :: rest) = { o with verbose := true }.addArguments rest := by
  rw [addArguments.eq_def]
  exact if_pos h

/-- An argument that announces an output takes the `value` after it, whatever that looks like, in
place of an earlier one. -/
theorem addArguments_output (h : a.IsOutput) :
    o.addArguments (a :: value :: rest) = { o with output := value.text }.addArguments rest := by
  rw [addArguments.eq_def]
  exact (if_neg h.not_isVerbose).trans (if_pos h)

/-- An argument that announces settings takes the `value` after it, whatever that looks like, in
place of an earlier one. -/
theorem addArguments_config (h : a.IsConfig) :
    o.addArguments (a :: value :: rest) =
      { o with config := some value.text }.addArguments rest := by
  rw [addArguments.eq_def]
  exact (if_neg h.not_isVerbose).trans ((if_neg h.not_isOutput).trans (if_pos h))

/-- An option `a` that needs a value is not the last argument, or `addArguments` reports the value
as missing. -/
theorem addArguments_valueMissing (h : a.IsOutput ∨ a.IsConfig) :
    o.addArguments [a] = .error (.valueMissing a.text) := by
  rw [addArguments.eq_def]
  rcases h with houtput | hconfig
  · exact (if_neg houtput.not_isVerbose).trans (if_pos houtput)
  · exact (if_neg hconfig.not_isVerbose).trans
      ((if_neg hconfig.not_isOutput).trans (if_pos hconfig))

/-- An argument `a` that is no option is unknown if it cannot be an input, and otherwise it is the
input or a second one. -/
theorem addArguments_other (hverbose : ¬ a.IsVerbose) (houtput : ¬ a.IsOutput)
    (hconfig : ¬ a.IsConfig) :
    o.addArguments (a :: rest) =
      if a.text.isEmpty ∨ a.text.head? = some Byte.minus then .error (.unknownOption a.text)
      else if o.input.isEmpty then { o with input := a.text }.addArguments rest
      else .error (.secondInput o.input a.text) := by
  rw [addArguments.eq_def]
  exact (if_neg hverbose).trans ((if_neg houtput).trans (if_neg hconfig))

/-- The first input is taken by `addArguments`, and a second one is refused. -/
theorem addArguments_input (h : a.IsInput) :
    o.addArguments (a :: rest) =
      if o.input.isEmpty then { o with input := a.text }.addArguments rest
      else .error (.secondInput o.input a.text) := by
  rw [addArguments_other h.not_isVerbose h.not_isOutput h.not_isConfig,
    if_neg (by simpa [Argument.IsInput] using h)]

/-- The arguments of one more group `g` that fits behind `gs` add it to the options of `gs`. -/
theorem addArguments_group (h : AtMostOneInput (gs ++ [g])) :
    (ofGroups gs).addArguments (g.arguments ++ rest) =
      (ofGroups (gs ++ [g])).addArguments rest := by
  rw [ofGroups_concat h]
  cases g with
  | verbose flag hverbose => exact addArguments_verbose hverbose
  | output flag value houtput => exact addArguments_output houtput
  | config flag value hconfig => exact addArguments_config hconfig
  | input path hpath =>
    have hnone : (ofGroups gs).input.isEmpty := by
      rw [ofGroups, atMostOneInput_concat_input.mp h]
      rfl
    exact (addArguments_input hpath).trans (if_pos hnone)

/-- The arguments of groups `gs'` that fit behind `gs` add them to the options of `gs`. -/
theorem addArguments_groups (h : AtMostOneInput (gs ++ gs')) :
    (ofGroups gs).addArguments (flatten gs' ++ rest) =
      (ofGroups (gs ++ gs')).addArguments rest := by
  induction gs' generalizing gs with
  | nil => rw [List.append_nil]; rfl
  | cons g gs' ih =>
    rw [← List.singleton_append, ← List.append_assoc] at h
    rw [flatten, List.flatMap_cons, List.append_assoc, addArguments_group h.of_append]
    exact (ih h).trans (by rw [List.append_assoc, List.singleton_append])

/-- Where no group fits, `addArguments` refuses the arguments for the problem `e` of the `Misfit`.
-/
theorem addArguments_misfit {e : OptionsProblem} (h : Misfit gs rest e) :
    (ofGroups gs).addArguments rest = .error e := by
  cases h with
  | valueMissing hflag => exact addArguments_valueMissing hflag
  | @unknownOption a after hinput hverbose houtput hconfig =>
    have hunknown : a.text.isEmpty ∨ a.text.head? = some Byte.minus := by
      rw [List.isEmpty_iff]
      by_contra hno
      exact hinput (not_or.mp hno)
    exact (addArguments_other hverbose houtput hconfig).trans (if_pos hunknown)
  -- The options know the first input, since no input is empty.
  | @secondInput a first after ha hinputs =>
    have hfirst : (ofGroups gs).input = first := by
      rw [ofGroups, hinputs]
      rfl
    have hne : first ≠ [] := ne_nil_of_mem_inputs (by rw [hinputs]; exact List.mem_cons_self)
    rw [addArguments_input ha, hfirst, if_neg (by simpa using hne)]

/-- What groups ask for does not depend on their order.

Arguments are accepted exactly if they split into groups with at most one input. The options are
then the input that is there, the last output, the last settings, and more log lines if a group asks
for them, so that reordered groups give the same options if the outputs keep their order and the
settings keep theirs. Arguments are refused exactly if some are left where no group fits, and the
reason is what is wrong with them there. -/
theorem options_of_groups :
    (∀ as o, ofArguments as = .ok o ↔
      ∃ gs, as = flatten gs ∧ AtMostOneInput gs ∧ o = ofGroups gs) ∧
    (∀ gs gs', gs.Perm gs' → outputs gs = outputs gs' → configs gs = configs gs' →
      AtMostOneInput gs → ofArguments (flatten gs) = ofArguments (flatten gs')) ∧
    ∀ as e, ofArguments as = .error e ↔
      ∃ gs rest, as = flatten gs ++ rest ∧ AtMostOneInput gs ∧ NoGroupFits gs rest ∧
        Misfit gs rest e := by
  -- Arguments are read up to where no group fits.
  have hread : ∀ gs rest, AtMostOneInput gs →
      ofArguments (flatten gs ++ rest) = (ofGroups gs).addArguments rest :=
    fun gs rest h => addArguments_groups (show AtMostOneInput ([] ++ gs) from h)
  have hall : ∀ gs, AtMostOneInput gs → ofArguments (flatten gs) = .ok (ofGroups gs) := by
    intro gs h
    have hgroups := hread gs [] h
    rwa [List.append_nil] at hgroups
  have hsplit : ∀ as, ∃ gs rest, as = flatten gs ++ rest ∧ AtMostOneInput gs ∧
      (rest = [] ∨ ∃ e, Misfit gs rest e) :=
    fun as => exists_groups (show AtMostOneInput [] from Nat.zero_le 1) as
  refine ⟨fun as o => ⟨fun h => ?_, ?_⟩, ?_, fun as e => ⟨fun h => ?_, ?_⟩⟩
  · obtain ⟨gs, rest, rfl, hone, rfl | ⟨e, hmisfit⟩⟩ := hsplit as
    · rw [List.append_nil] at h ⊢
      exact ⟨gs, rfl, hone, Except.ok.inj (h.symm.trans (hall gs hone))⟩
    · rw [hread gs rest hone, addArguments_misfit hmisfit] at h
      cases h
  · rintro ⟨gs, rfl, hone, rfl⟩
    exact hall gs hone
  · intro gs gs' hperm houtputs hconfigs hone
    obtain ⟨hone', hsame⟩ := ofGroups_perm hperm hone houtputs hconfigs
    rw [hall gs hone, hall gs' hone', hsame]
  · -- The arguments split into groups as far as these fit, and what is left is what is wrong.
    obtain ⟨gs, rest, rfl, hone, rfl | ⟨e', hmisfit⟩⟩ := hsplit as
    · rw [List.append_nil, hall gs hone] at h
      cases h
    · rw [hread gs rest hone, addArguments_misfit hmisfit] at h
      obtain rfl := Except.error.inj h
      exact ⟨gs, rest, rfl, hone, hmisfit.noGroupFits, hmisfit⟩
  · -- The groups in front are read first, and the problem is that of what is left.
    rintro ⟨gs, rest, rfl, hone, -, hmisfit⟩
    rw [hread gs rest hone, addArguments_misfit hmisfit]

/-- An output that looks like an option is not the last output, which is empty. It makes no
difference whether the input and the settings come before the outputs or after them. -/
theorem options_of_groups_reordered :
    let a : OptionGroup := .input (.ofText (ascii "a.draw")) ⟨by decide, by decide⟩
    let c : OptionGroup := .config (.ofText (ascii "-c")) (.ofText (ascii "c.json")) (.inl rfl)
    let o : OptionGroup := .output (.ofText (ascii "-o")) (.ofText (ascii "-v")) (.inl rfl)
    let o' : OptionGroup := .output (.ofText (ascii "--output")) (.ofText []) (.inr rfl)
    let gs := [a, c] ++ [o, o']
    let gs' := [o, o'] ++ [a, c]
    gs.Perm gs' ∧ outputs gs = outputs gs' ∧ configs gs = configs gs' ∧ AtMostOneInput gs ∧
      flatten gs = [ascii "a.draw", ascii "-c", ascii "c.json", ascii "-o", ascii "-v",
        ascii "--output", []].map Argument.ofText ∧
      ofArguments (flatten gs) =
        .ok { input := ascii "a.draw", config := some (ascii "c.json") } ∧
      ofArguments (flatten gs) = ofArguments (flatten gs') := by
  intro a c o o' gs gs'
  have hperm : gs.Perm gs' := List.perm_append_comm
  have hone : AtMostOneInput gs := Nat.le_refl 1
  obtain ⟨haccepted, hreordered, -⟩ := options_of_groups
  exact ⟨hperm, rfl, rfl, hone, rfl, (haccepted _ _).mpr ⟨gs, rfl, hone, rfl⟩,
    hreordered gs gs' hperm rfl rfl hone⟩

end Options

end Sketch
