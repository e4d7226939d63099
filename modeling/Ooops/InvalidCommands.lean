import Ooops.CommandLine

/-!
# Invalid Commands

What `set_io_param` does with a command line that is none of the forms of its usage text. It
takes any number of words that is divisible by five for groups and any two words for a server
and a level; `atoi` makes an index of any word, the index is not checked, and an unknown level
falls through to the end. One word, and all other numbers of words, lead to the usage text.

* `Documented` are the forms of the usage text, `Publishes` the lines that come to
  `Publish_Parameters`.
* `rejectsInvalid_iff`: which lines keep inside of the arrays and change nothing unless they are
  of a documented form.
-/

open Basis

namespace Ooops

/-- A number of a server. -/
def IsServerIdx (word : CStr) : Prop :=
  word ≠ [] ∧ (∀ c ∈ word, isDigit c = true) ∧ digitsVal word < 8

/-- One of the levels `low / medium / high / unlimit`. -/
def IsLevel (word : CStr) : Prop :=
  word ∈ ["low", "medium", "high", "unlimit"].map bytesOf

instance (word : CStr) : Decidable (IsLevel word) :=
  inferInstanceAs (Decidable (_ ∈ _))

/-- Groups of a server and four values. -/
def DocumentedGroups : List CStr → Prop
  | [] => True
  | idx :: _ :: _ :: _ :: _ :: args => IsServerIdx idx ∧ DocumentedGroups args
  | _ => False

/-- The forms that `Print_Usage_Info` lists. -/
def Documented : List CStr → Prop
  | [] => True
  | [word] => word = bytesOf "0" ∨ word = bytesOf "1"
  | [idx, word] => IsServerIdx idx ∧ IsLevel word
  | args => DocumentedGroups args

/-- A command line that comes to `Publish_Parameters`, unless it stores outside of the arrays
before. -/
def Publishes (env : ToolEnv) (args : List CStr) : Prop :=
  args ≠ [] ∧ args.length % 5 = 0 ∨ args.length = 2 ∧ env.default?.isSome = true

/-- The command stores only inside of its arrays, and leaves the block as it was if its line is
of no documented form. -/
def RejectsInvalid (lib : ToolLib) (env : ToolEnv) (args : List CStr) : Prop :=
  ∀ b rdtscp, ∃ b', toolMain lib env args b rdtscp = some b' ∧ (¬Documented args → b' = b)

/-! ### Documented lines -/

/-- The number of a server is an index. -/
theorem exists_fsIdx {word : CStr} (h : IsServerIdx word) : ∃ i, fsIdx? word = some i := by
  obtain ⟨hne, hdigits, hlt⟩ := h
  obtain ⟨c, w, rfl⟩ := List.exists_cons_of_ne_nil hne
  have hatoi := atoi_of_digit (hdigits c List.mem_cons_self) w
  exact ⟨_, dif_pos ⟨by omega, by omega⟩⟩

/-- Documented groups are read. -/
theorem exists_readGroups (lib : ToolLib) {args : List CStr} (h : DocumentedGroups args)
    (t : Tool) : ∃ t', readGroups lib t args = some t' := by
  induction args using DocumentedGroups.induct generalizing t with
  | case1 => exact ⟨t, rfl⟩
  | case2 idx tOpen fOpen tStat fStat args ih =>
      obtain ⟨i, hi⟩ := exists_fsIdx h.1
      obtain ⟨t', ht'⟩ := ih h.2 (t.set i (groupParam lib tOpen fOpen tStat fStat))
      exact ⟨t', by rw [readGroups, hi, Option.bind_some, ht']⟩
  | case3 args h₁ h₂ =>
      rw [DocumentedGroups] at h
      · exact absurd h not_false
      · exact h₁
      · exact h₂

/-! ### The shapes of a line -/

section Shapes

variable {lib : ToolLib} {env : ToolEnv} {args : List CStr} {b b' : ParamBlock} {rdtscp : ℕ}

/-- A number of words that is divisible by five is taken for groups. -/
theorem toolMain_groups (h : args.length % 5 = 0) :
    toolMain lib env args b rdtscp = (readGroups lib Tool.start args).map fun t =>
      if args.length ≠ 0 then t.publishWith lib env.freq b rdtscp else b :=
  if_pos h

/-- One word is a switch, or it leads to the usage text. -/
theorem toolMain_word (w : CStr) :
    ∃ b', toolMain lib env [w] b rdtscp = some b' ∧ (¬Documented [w] → b' = b) := by
  rw [toolMain, if_neg (by simp)]
  by_cases hw : w = bytesOf "0" ∨ w = bytesOf "1"
  · simp only [if_pos hw]
    by_cases hon : atoi w ≠ 0
    · exact ⟨_, if_pos hon, fun hno => absurd hw hno⟩
    · exact ⟨_, if_neg hon, fun hno => absurd hw hno⟩
  · exact ⟨b, if_neg hw, fun _ => rfl⟩

/-- Two words without a configuration change nothing. -/
theorem toolMain_level_of_none (hd : env.default? = none) (idx w : CStr) :
    toolMain lib env [idx, w] b rdtscp = some b := by
  rw [toolMain, if_neg (by simp)]
  simp only [hd]

/-- Two words are a server and a level. -/
theorem toolMain_level {d : FsIdx → ServerParam} (hd : env.default? = some d) (idx w : CStr) :
    toolMain lib env [idx, w] b rdtscp = (fsIdx? idx).map fun fsIdx =>
      (Tool.start.set fsIdx ((Level.ofWord w).applyWith lib (d fsIdx))).publishWith lib env.freq
        b rdtscp := by
  rw [toolMain, if_neg (by simp)]
  simp only [hd]

/-- All other numbers of words lead to the usage text. -/
theorem toolMain_usage (h : args.length % 5 ≠ 0) (hlen : 3 ≤ args.length) :
    toolMain lib env args b rdtscp = some b := by
  obtain ⟨w, w', w'', args, rfl⟩ : ∃ w w' w'' rest, args = w :: w' :: w'' :: rest := by
    match args, hlen with
    | w :: w' :: w'' :: rest, _ => exact ⟨w, w', w'', rest, rfl⟩
  exact if_neg h

/-- A documented line keeps inside of the arrays. -/
theorem exists_toolMain (h : Documented args) : ∃ b', toolMain lib env args b rdtscp = some b' := by
  by_cases hfive : args.length % 5 = 0
  · have hgroups : DocumentedGroups args := by
      match args, h, hfive with
      | [], _, _ => trivial
      | _ :: _ :: _ :: _, h, _ => exact h
    obtain ⟨t, ht⟩ := exists_readGroups lib hgroups Tool.start
    exact ⟨_, by rw [toolMain_groups hfive, ht, Option.map_some]⟩
  · match args, h, hfive with
    | [], _, hfive => exact absurd rfl hfive
    | [w], _, _ =>
        obtain ⟨b', hb', -⟩ := @toolMain_word lib env b rdtscp w
        exact ⟨b', hb'⟩
    | [idx, w], h, _ =>
        cases hd : env.default? with
        | none => exact ⟨b, toolMain_level_of_none hd idx w⟩
        | some d =>
            obtain ⟨i, hi⟩ := exists_fsIdx h.1
            exact ⟨_, by rw [toolMain_level hd, hi, Option.map_some]⟩
    | _ :: _ :: _ :: _, _, hfive => exact ⟨b, toolMain_usage hfive (by simp)⟩

/-- A publication changes the time stamp. -/
theorem toolMain_of_publishes (h : Publishes env args)
    (hmain : toolMain lib env args b rdtscp = some b') : b'.tUpdatedParam = rdtscp := by
  rcases h with ⟨hne, hfive⟩ | ⟨htwo, hconfig⟩
  · have hlen : args.length ≠ 0 := fun h0 => hne (List.length_eq_zero_iff.mp h0)
    rw [toolMain_groups hfive] at hmain
    obtain ⟨t, -, rfl⟩ := Option.map_eq_some_iff.mp hmain
    rw [if_pos hlen]
    rfl
  · obtain ⟨d, hd⟩ := Option.isSome_iff_exists.mp hconfig
    obtain ⟨idx, w, rfl⟩ := List.length_eq_two.mp htwo
    rw [toolMain_level hd] at hmain
    obtain ⟨i, -, rfl⟩ := Option.map_eq_some_iff.mp hmain
    rfl

/-- Other lines change nothing, but for the two switches. -/
theorem toolMain_of_not_publishes (h : ¬Publishes env args) :
    ∃ b', toolMain lib env args b rdtscp = some b' ∧ (¬Documented args → b' = b) := by
  obtain ⟨hgroups, hlevel⟩ := not_or.mp h
  match args, hgroups, hlevel with
  | [], _, _ => exact ⟨b, rfl, fun _ => rfl⟩
  | [w], _, _ => exact toolMain_word w
  | [idx, w], _, hlevel =>
      have hd : env.default? = none := by
        rw [← Option.not_isSome_iff_eq_none]
        exact fun hconfig => hlevel ⟨rfl, hconfig⟩
      exact ⟨b, toolMain_level_of_none hd idx w, fun _ => rfl⟩
  | _ :: _ :: _ :: _, hgroups, _ =>
      have hfive : ¬_ % 5 = 0 := fun hfive => hgroups ⟨List.cons_ne_nil _ _, hfive⟩
      exact ⟨b, toolMain_usage hfive (by simp), fun _ => rfl⟩

end Shapes

/-- **Invalid commands.** A line keeps inside of the arrays, and changes nothing unless it is of a
documented form, exactly if it is of one or does not come to `Publish_Parameters`. -/
theorem rejectsInvalid_iff (lib : ToolLib) (env : ToolEnv) (args : List CStr) :
    RejectsInvalid lib env args ↔ Documented args ∨ ¬Publishes env args := by
  constructor
  · intro hreject
    by_contra hneither
    obtain ⟨hdoc, hpub⟩ := not_or.mp hneither
    obtain ⟨b', hmain, hsame⟩ := hreject ParamBlock.zero 1
    have hstamp := toolMain_of_publishes (not_not.mp hpub) hmain
    rw [hsame hdoc] at hstamp
    exact absurd hstamp (by decide)
  · rintro (hdoc | hpub) b rdtscp
    · obtain ⟨b', hmain⟩ := exists_toolMain hdoc
      exact ⟨b', hmain, fun hno => absurd hdoc hno⟩
    · exact toolMain_of_not_publishes hpub

/-- A configuration in which all defaults are 1. -/
def onesEnv : ToolEnv := ⟨2000000000, some fun _ => ⟨fun _ => 1, fun _ => 1⟩⟩

/-- An unknown level publishes the defaults, and an index behind the last server stores outside
of the arrays. -/
theorem unknown_level_publishes :
    ¬RejectsInvalid (ToolLib.exact fun s => atoi s) onesEnv (["3", "fast"].map bytesOf) ∧
      (∃ b', toolMain (ToolLib.exact fun s => atoi s) onesEnv (["3", "fast"].map bytesOf)
        ParamBlock.zero 1 = some b' ∧ b'.maxFreqShare .openFile 3 = 1) ∧
      toolMain (ToolLib.exact fun s => atoi s) onesEnv
        (["8", "1", "2", "3", "4"].map bytesOf) ParamBlock.zero 1 = none := by
  refine ⟨fun hreject => ?_, ⟨_, rfl, by decide +kernel⟩, by decide +kernel⟩
  obtain ⟨b', hmain, hsame⟩ := hreject ParamBlock.zero 1
  have hdoc : ¬Documented (["3", "fast"].map bytesOf) := fun h => absurd h.2 (by decide)
  have hstamp := toolMain_of_publishes (.inr ⟨rfl, rfl⟩) hmain
  rw [hsame hdoc] at hstamp
  exact absurd hstamp (by decide)

end Ooops
