import DocComment.Program
import Mathlib.Data.List.Induction

/-!
# What a command line asks for

A command line is read from the left, but what it asks for does not depend on the order of its
words, up to the order of the command words among themselves (`CommandLine.ofArgs_decided`).

A word ends the reading if it asks for help or the version, is an option that there is not, or is a
second file (`CommandLine.Offends`). The earliest such word decides. If there is none, the settings
are read off from the words as a whole (`CommandLine.settings`): a step of the reading adds one word
to them (`CommandLine.add_settings`), and so a run adds all of them (`CommandLine.foldlM_add`).
-/

namespace DocComment.CommandLine

/-! ### The roles of words -/

def isHelp (w : Text) : Bool := ["-h".toList, "--help".toList].contains w

def isVersion (w : Text) : Bool := ["-V".toList, "--version".toList].contains w

def isVerbose (w : Text) : Bool := ["-v".toList, "--verbose".toList].contains w

def isJson (w : Text) : Bool := ["-j".toList, "--json".toList].contains w

def commandWords : List (Text × Command) :=
  [("html".toList, .html), ("text".toList, .text), ("tokens".toList, .tokens),
    ("tree".toList, .tree)]

/-- The command that a word stands for. -/
def command? (w : Text) : Option Command := commandWords.lookup w

def isCommand (w : Text) : Bool := (command? w).isSome

/-- Whether a word is a command, a flag, or a question about the program. -/
def isKnown (w : Text) : Bool :=
  isHelp w || isVersion w || isVerbose w || isJson w || isCommand w

/-- Whether a word looks like an option and is none. A hyphen alone does not look like one. -/
def isUnknown (w : Text) : Bool := !isKnown w && w.head? == some '-' && w != ['-']

/-- Whether a word names a file, as every word does that is nothing else. -/
def isFile (w : Text) : Bool := !isKnown w && !isUnknown w

variable {args args' before : List Text} {w : Text} {stop : Stop} {c : Command}

theorem ofText_of_isHelp (h : isHelp w = true) : Arg.ofText w = .help := by
  have hall : ∀ w ∈ ["-h".toList, "--help".toList], Arg.ofText w = .help := by decide
  exact hall w (List.contains_iff_mem.1 h)

theorem ofText_of_isVersion (h : isVersion w = true) : Arg.ofText w = .version := by
  have hall : ∀ w ∈ ["-V".toList, "--version".toList], Arg.ofText w = .version := by decide
  exact hall w (List.contains_iff_mem.1 h)

theorem ofText_of_isVerbose (h : isVerbose w = true) :
    Arg.ofText w = .verbose ∧ isJson w = false ∧ command? w = none := by
  have hall : ∀ w ∈ ["-v".toList, "--verbose".toList],
      Arg.ofText w = .verbose ∧ isJson w = false ∧ command? w = none := by decide
  exact hall w (List.contains_iff_mem.1 h)

theorem ofText_of_isJson (h : isJson w = true) :
    Arg.ofText w = .json ∧ isVerbose w = false ∧ command? w = none := by
  have hall : ∀ w ∈ ["-j".toList, "--json".toList],
      Arg.ofText w = .json ∧ isVerbose w = false ∧ command? w = none := by decide
  exact hall w (List.contains_iff_mem.1 h)

theorem ofText_of_command? (h : command? w = some c) : Arg.ofText w = .command c := by
  have hall : ∀ p ∈ commandWords, Arg.ofText p.1 = .command p.2 := by decide
  obtain ⟨front, back, htable, -⟩ := List.lookup_eq_some_iff.1 h
  exact hall (w, c) (by rw [htable]; exact List.mem_append_right front List.mem_cons_self)

/-- A word without a meaning of its own is classed by its first character. -/
theorem ofText_of_isKnown_eq_false (h : isKnown w = false) :
    Arg.ofText w = if isUnknown w then .unknown w else .file w := by
  have hlookup : Arg.words.lookup w = none := by
    have hall : ∀ p ∈ Arg.words, isKnown p.1 = true := by decide
    rw [List.lookup_eq_none_iff]
    intro p hp
    rw [bne_iff_ne]
    rintro rfl
    rw [hall p hp] at h
    cases h
  unfold Arg.ofText
  rw [hlookup, isUnknown, h]
  dsimp only
  split
  · simp
  · next hshape =>
    match w with
    | [] => rfl
    | [c] => by_cases hc : c = '-' <;> simp [hc]
    | c :: d :: t =>
      have hc : c ≠ '-' := fun hc => hshape d t (by rw [hc])
      simp [hc]

/-! ### The words that end the reading -/

/-- Behind the words `before`, the word `w` ends the reading of a command line. -/
inductive Offends (before : List Text) (w : Text) : Stop → Prop
  | help : isHelp w = true → Offends before w .help
  | version : isVersion w = true → Offends before w .version
  | unknown : isUnknown w = true → Offends before w (.unknownOption w)
  | file : isFile w = true → before.any isFile = true → Offends before w .manyFiles

/-- No word of a command line ends its reading. -/
def Harmless (args : List Text) : Prop :=
  ∀ before w, before ++ [w] <+: args → ∀ stop, ¬ Offends before w stop

theorem harmless_nil : Harmless [] := by
  intro before w h
  simp at h

theorem harmless_concat_iff :
    Harmless (before ++ [w]) ↔ Harmless before ∧ ∀ stop, ¬ Offends before w stop := by
  constructor
  · intro h
    exact ⟨fun b v hpre => h b v (hpre.trans (List.prefix_append _ _)),
      h before w (List.prefix_refl _)⟩
  · rintro ⟨hbefore, hw⟩ b v hpre
    rcases List.prefix_concat_iff.1 hpre with heq | hpre
    · obtain ⟨rfl, hv⟩ := List.append_inj' heq rfl
      obtain rfl := List.singleton_inj.1 hv
      exact hw
    · exact hbefore b v hpre

/-- Every command line is harmless or has an earliest word that ends its reading. -/
theorem harmless_or_offends (args : List Text) :
    Harmless args ∨
      ∃ before w stop, before ++ [w] <+: args ∧ Harmless before ∧ Offends before w stop := by
  induction args using List.reverseRecOn with
  | nil => exact .inl harmless_nil
  | append_singleton args w ih =>
    rcases ih with hargs | ⟨before, v, stop, hpre, hbefore, hv⟩
    · by_cases hw : ∃ stop, Offends args w stop
      · obtain ⟨stop, hw⟩ := hw
        exact .inr ⟨args, w, stop, List.prefix_refl _, hargs, hw⟩
      · exact .inl (harmless_concat_iff.2 ⟨hargs, not_exists.1 hw⟩)
    · exact .inr ⟨before, v, stop, hpre.trans (List.prefix_append _ _), hbefore, hv⟩

/-! ### Reading -/

/-- The settings of a command line, by its words as a whole. -/
def settings (args : List Text) : Settings where
  command := (args.filterMap command?).getLast?.getD .html
  file := args.find? isFile
  json := args.any isJson
  verbose := args.any isVerbose

theorem settings_concat (before : List Text) (w : Text) :
    settings (before ++ [w]) =
      { command := (command? w).getD (settings before).command
        file := (settings before).file.or (if isFile w then some w else none)
        json := (settings before).json || isJson w
        verbose := (settings before).verbose || isVerbose w } := by
  have hcommand : ((before ++ [w]).filterMap command?).getLast?.getD .html =
      (command? w).getD ((before.filterMap command?).getLast?.getD .html) := by
    rw [List.filterMap_append, List.getLast?_append]
    cases hw : command? w <;> simp [hw]
  simp only [settings, hcommand, List.find?_append, List.any_append, List.find?_singleton,
    List.any_cons, List.any_nil, Bool.or_false]

/-- A word that does not end the reading is added to the settings of the words before it. -/
theorem add_settings (h : ∀ stop, ¬ Offends before w stop) :
    (settings before).add (Arg.ofText w) = .ok (settings (before ++ [w])) := by
  have hhelp : isHelp w = false := Bool.eq_false_iff.2 fun h' => h _ (.help h')
  have hversion : isVersion w = false := Bool.eq_false_iff.2 fun h' => h _ (.version h')
  have hunknown : isUnknown w = false := Bool.eq_false_iff.2 fun h' => h _ (.unknown h')
  have hknown : isKnown w = true → isFile w = false := fun h' => by rw [isFile, h']; rfl
  rw [settings_concat]
  cases hverbose : isVerbose w with
  | true =>
    obtain ⟨hclass, hjson, hcommand⟩ := ofText_of_isVerbose hverbose
    have hfile : isFile w = false := hknown (by simp [isKnown, hverbose])
    simp [hclass, hjson, hcommand, hfile, Settings.add]
  | false =>
    cases hjson : isJson w with
    | true =>
      obtain ⟨hclass, -, hcommand⟩ := ofText_of_isJson hjson
      have hfile : isFile w = false := hknown (by simp [isKnown, hjson])
      simp [hclass, hcommand, hfile, Settings.add]
    | false =>
      cases hcommand : command? w with
      | some c =>
        have hfile : isFile w = false := hknown (by simp [isKnown, isCommand, hcommand])
        simp [ofText_of_command? hcommand, hfile, Settings.add]
      | none =>
        have hclass : isKnown w = false := by
          simp [isKnown, isCommand, hhelp, hversion, hverbose, hjson, hcommand]
        have hfile : isFile w = true := by rw [isFile, hclass, hunknown]; rfl
        -- a second file would end the reading
        have hfirst : (settings before).file = none := by
          rw [settings, List.find?_eq_none]
          intro v hv hfile'
          exact h _ (.file hfile (List.any_eq_true.2 ⟨v, hv, hfile'⟩))
        rw [ofText_of_isKnown_eq_false hclass, hunknown]
        simp [hfirst, hfile, Settings.add]

theorem add_settings_of_offends (h : Offends before w stop) :
    (settings before).add (Arg.ofText w) = .error stop := by
  cases h with
  | help hw => rw [ofText_of_isHelp hw]; rfl
  | version hw => rw [ofText_of_isVersion hw]; rfl
  | unknown hw =>
    have hclass : isKnown w = false := by simp_all [isUnknown]
    rw [ofText_of_isKnown_eq_false hclass, hw]
    rfl
  | file hw hbefore =>
    obtain ⟨hclass, hunknown⟩ : isKnown w = false ∧ isUnknown w = false := by
      simpa [isFile] using hw
    have hsome : (settings before).file.isSome = true := by
      rw [settings, List.find?_isSome]
      exact List.any_eq_true.1 hbefore
    rw [ofText_of_isKnown_eq_false hclass, hunknown]
    simp [Settings.add, hsome]

theorem foldlM_add (h : Harmless before) :
    (before.map Arg.ofText).foldlM Settings.add {} = .ok (settings before) := by
  induction before using List.reverseRecOn with
  | nil => rfl
  | append_singleton before w ih =>
    obtain ⟨hbefore, hw⟩ := harmless_concat_iff.1 h
    rw [List.map_append, List.foldlM_append, ih hbefore]
    exact (bind_pure _).trans (add_settings hw)

theorem ofArgs_of_harmless (h : Harmless args) : Request.ofArgs args = (settings args).request := by
  rw [Request.ofArgs, foldlM_add h]
  rfl

/-- The earliest word that ends the reading decides, whatever comes behind it. -/
theorem ofArgs_of_offends (hpre : before ++ [w] <+: args) (hbefore : Harmless before)
    (hw : Offends before w stop) : Request.ofArgs args = .error stop := by
  obtain ⟨after, rfl⟩ := hpre
  rw [Request.ofArgs, List.map_append, List.map_append, List.foldlM_append, List.foldlM_append,
    foldlM_add hbefore]
  show (((settings before).add (Arg.ofText w) >>= pure) >>= _) >>= _ = _
  rw [add_settings_of_offends hw]
  rfl

theorem find?_isFile_of_harmless (h : Harmless args) {file : Text} (hmem : file ∈ args)
    (hfile : isFile file = true) : args.find? isFile = some file := by
  obtain ⟨before, after, rfl⟩ := List.append_of_mem hmem
  have hnone : before.find? isFile = none := by
    rw [List.find?_eq_none]
    intro v hv hv'
    refine h before file ⟨after, by simp⟩ .manyFiles (.file hfile ?_)
    exact List.any_eq_true.2 ⟨v, hv, hv'⟩
  rw [List.find?_append, hnone, List.find?_cons_of_pos hfile]
  rfl

/-! ### Command lines as a whole -/

/-- What decides the result of a command line. -/
structure Decided (args : List Text) (result : Except Stop Request) : Prop where
  /-- Either there is an earliest word that ends the reading, or there is none at all. -/
  cases : Harmless args ∨ ∃ before w after stop, args = before ++ w :: after ∧ Harmless before ∧
    Offends before w stop
  stopped : ∀ before w after stop, args = before ++ w :: after → Harmless before →
    Offends before w stop → result = .error stop
  noFile : Harmless args → (result = .error .noFile ↔ ∀ w ∈ args, isFile w = false)
  request : Harmless args → ∀ file ∈ args, isFile file = true →
    result = .ok {
      command := (args.filterMap command?).getLast?.getD .html, file
      json := args.any isJson, verbose := args.any isVerbose }

theorem decided_ofArgs (args : List Text) : Decided args (Request.ofArgs args) where
  cases := by
    refine (harmless_or_offends args).imp_right ?_
    rintro ⟨before, w, stop, ⟨after, rfl⟩, hbefore, hw⟩
    exact ⟨before, w, after, stop, by simp, hbefore, hw⟩
  stopped before w after stop hargs hbefore hw :=
    ofArgs_of_offends ⟨after, by simp [hargs]⟩ hbefore hw
  noFile h := by
    rw [ofArgs_of_harmless h, Settings.request]
    split
    · next hnone => simpa [settings] using hnone
    · next file hsome =>
      have hfile : isFile file = true := List.find?_some hsome
      have hmem : file ∈ args := List.mem_of_find?_eq_some hsome
      simpa using ⟨file, hmem, hfile⟩
  request h file hmem hfile := by
    have hsome : (settings args).file = some file := find?_isFile_of_harmless h hmem hfile
    rw [ofArgs_of_harmless h, Settings.request, hsome]
    rfl

/-! ### The order of words -/

theorem not_offends_iff :
    (∀ stop, ¬ Offends before w stop) ↔
      (isHelp w = false ∧ isVersion w = false ∧ isUnknown w = false) ∧
        (isFile w = true → before.any isFile = false) := by
  constructor
  · intro h
    exact ⟨⟨Bool.eq_false_iff.2 fun hw => h _ (.help hw),
      Bool.eq_false_iff.2 fun hw => h _ (.version hw),
      Bool.eq_false_iff.2 fun hw => h _ (.unknown hw)⟩,
      fun hw => Bool.eq_false_iff.2 fun hbefore => h _ (.file hw hbefore)⟩
  · rintro ⟨⟨hhelp, hversion, hunknown⟩, hfile⟩ stop hw
    cases hw with
    | help h => simp [h] at hhelp
    | version h => simp [h] at hversion
    | unknown h => simp [h] at hunknown
    | file h hbefore => simp [hfile h] at hbefore

/-- Whether a command line is harmless does not depend on the order of its words. -/
theorem harmless_iff :
    Harmless args ↔
      (∀ w ∈ args, isHelp w = false ∧ isVersion w = false ∧ isUnknown w = false) ∧
        args.countP isFile ≤ 1 := by
  induction args using List.reverseRecOn with
  | nil => simp [harmless_nil]
  | append_singleton args w ih =>
    have hcount : args.any isFile = false ↔ args.countP isFile = 0 := by
      rw [List.any_eq_false, List.countP_eq_zero]
    have hone : args.countP isFile + (if isFile w = true then 1 else 0) ≤ 1 ↔
        args.countP isFile ≤ 1 ∧ (isFile w = true → args.countP isFile = 0) := by
      cases isFile w with
      | false => simp
      | true =>
        simp only [if_true, forall_const]
        omega
    rw [harmless_concat_iff, ih, not_offends_iff, hcount, List.forall_mem_append,
      List.forall_mem_singleton, List.countP_append, List.countP_singleton, hone]
    tauto

theorem harmless_of_ofArgs {r : Request} (h : Request.ofArgs args = .ok r) : Harmless args := by
  rcases harmless_or_offends args with hargs | ⟨before, w, stop, hpre, hbefore, hw⟩
  · exact hargs
  · rw [ofArgs_of_offends hpre hbefore hw] at h
    cases h

theorem filterMap_command? (args : List Text) :
    (args.filter isCommand).filterMap command? = args.filterMap command? := by
  rw [List.filterMap_filter]
  congr
  funext w
  cases h : command? w <;> simp [isCommand, h]

/-- Words may change places in a command line with a request, if command words do not change places
with each other. -/
theorem ofArgs_of_perm {r : Request} (h : Request.ofArgs args = .ok r) (hperm : args.Perm args')
    (horder : args'.filter isCommand = args.filter isCommand) : Request.ofArgs args' = .ok r := by
  have hargs := harmless_of_ofArgs h
  have hargs' : Harmless args' := by
    obtain ⟨hwords, hcount⟩ := harmless_iff.1 hargs
    exact harmless_iff.2 ⟨fun w hw => hwords w (hperm.mem_iff.2 hw), hperm.countP_eq _ ▸ hcount⟩
  obtain ⟨file, hmem, hfile⟩ : ∃ file ∈ args, isFile file = true := by
    by_contra hnone
    rw [(decided_ofArgs args).noFile hargs |>.2 (by simpa using hnone)] at h
    cases h
  rw [(decided_ofArgs args).request hargs file hmem hfile] at h
  rw [(decided_ofArgs args').request hargs' file (hperm.mem_iff.1 hmem) hfile, ← h,
    ← filterMap_command? args', horder, filterMap_command?, hperm.any_eq, hperm.any_eq]

/-! ### Answers -/

/-- What is answered to a command line without a request. A question about the program is no
failure, and an error is named. -/
def Answers : Stop → Program.Output → Prop
  | .help, o => o.code = 0 ∧ o.err = Program.usage
  | .version, o => o.code = 0 ∧ o.out = "dmcli 0.1.0\n".toList
  | .unknownOption w, o => o.code = 1 ∧ o.err = "error: unknown option: ".toList ++ w ++ ['\n']
  | .manyFiles, o => o.code = 1 ∧ o.err = "error: multiple files specified\n".toList
  | .noFile, o => o.code = 1 ∧ o.err = "error: no input file specified\n".toList

theorem answers_stopped (stop : Stop) : Answers stop (Program.stopped stop) := by
  cases stop <;> exact ⟨rfl, rfl⟩

/-- The earliest word that ends the reading of a command line decides, and is answered at once. If
there is none, the words as a whole make the request, so that their order does not matter but for
that of the command words. -/
theorem ofArgs_decided (args : List Text) :
    Decided args (Request.ofArgs args) ∧
    (∀ stop, Request.ofArgs args = .error stop → ∀ {m : Type → Type} [Monad m]
      (read : File.Source → m (Except File.Fault ByteArray)) (enabled : Log.Event → Bool),
      ∃ o, Program.run read enabled args = pure o ∧ Answers stop o) ∧
    ∀ r args', Request.ofArgs args = .ok r → args.Perm args' →
      args'.filter isCommand = args.filter isCommand → Request.ofArgs args' = .ok r := by
  refine ⟨decided_ofArgs args, fun stop h m _ read enabled => ?_, fun r args' => ofArgs_of_perm⟩
  refine ⟨Program.stopped stop, ?_, answers_stopped stop⟩
  rw [Program.run, h]

/-- The unknown option comes before the question about help. In the other command line the last one
of two commands counts, wherever the file and the flag stand. -/
theorem ofArgs_decided_reordered :
    Request.ofArgs ["x".toList, "-q".toList, "-h".toList] = .error (.unknownOption "-q".toList) ∧
    Request.ofArgs ["-".toList, "tree".toList, "-j".toList, "text".toList] =
      .ok { command := .text, file := "-".toList, json := true, verbose := false } := by
  have hfile : Harmless ["x".toList] := harmless_iff.2 (by decide)
  refine ⟨?_, ?_⟩
  · exact (ofArgs_decided _).1.stopped ["x".toList] "-q".toList ["-h".toList] _ rfl hfile
      (.unknown (by decide))
  · exact (ofArgs_decided ["tree".toList, "text".toList, "-j".toList, "-".toList]).2.2 _ _
      (by decide) (by decide) (by decide)

end DocComment.CommandLine
