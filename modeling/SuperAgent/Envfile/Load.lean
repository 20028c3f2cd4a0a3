import Mathlib.Logic.Function.Basic
import SuperAgent.Core.Text

/-!
# Settings from files

A setting is a line with a name and a value. Files are read in order, and a
setting that is there already stays, whether it came from the environment, from
an earlier file or from an earlier line.
-/

namespace SuperAgent.Envfile

/-! ## A line -/

/-- The text without a leading `export`. -/
def trimExport : List Char → List Char
  | 'e' :: 'x' :: 'p' :: 'o' :: 'r' :: 't' :: ' ' :: cs => cs
  | cs => cs

/-- The text without one layer of matching quotes. -/
def unquote (cs : List Char) : List Char :=
  if 2 ≤ cs.length ∧ (cs.head? = some '"' ∧ cs.getLast? = some '"' ∨
      cs.head? = some '\'' ∧ cs.getLast? = some '\'') then cs.tail.dropLast
  else cs

/-- The name and the value of a line. The name of a malformed line is empty, and blank lines and
comments have neither. -/
def parseLine (raw : String) : Option (String × String) :=
  match (trimSpace raw).toList with
  | [] => none
  | '#' :: _ => none
  | line =>
    match cut '=' (trimExport line) with
    | none => some ("", "")
    | some (key, value) => some (trimSpace (String.ofList key),
        String.ofList (unquote (trimSpace (String.ofList value)).toList))

example : parseLine "  export A_KEY = 'it''s' " = some ("A_KEY", "it''s") := by decide
example : parseLine "SECRET=a#b" = some ("SECRET", "a#b") := by decide

/-- A name as the system allows it, on a line of its own. -/
def Name (key : String) : Prop :=
  key ≠ "" ∧ key.toList.head? ≠ some '#' ∧ ∀ c ∈ key.toList, isSpace c = false ∧ c ≠ '='

instance (key : String) : Decidable (Name key) :=
  have := List.decidableBAll (fun c => isSpace c = false ∧ c ≠ '=') key.toList
  inferInstanceAs (Decidable (_ ∧ _ ∧ _))

/-- Text that starts and ends with no white space has none around it. -/
theorem trimSpace_of_ends {cs : List Char} {a b : Char} (ha : cs.head? = some a)
    (hb : cs.getLast? = some b) (hsa : isSpace a = false) (hsb : isSpace b = false) :
    trimSpace (String.ofList cs) = String.ofList cs := by
  have hkeep : ∀ {ds : List Char} {c : Char}, ds.head? = some c → isSpace c = false →
      ds.dropWhile isSpace = ds := by
    intro ds c hc hs
    obtain ⟨t, rfl⟩ := List.head?_eq_some_iff.mp hc
    simp [hs]
  have hback : cs.reverse.head? = some b := by rw [List.head?_reverse, hb]
  rw [trimSpace, String.toList_ofList, hkeep ha hsa, hkeep hback hsb, List.reverse_reverse]

/-- No name begins with `export` and a space. -/
theorem trimExport_name {key rest : List Char} (hkey : ∀ c ∈ key, isSpace c = false ∧ c ≠ '=') :
    trimExport (key ++ '=' :: rest) = key ++ '=' :: rest := by
  unfold trimExport
  split
  · next cs heq =>
    -- The space would be in what comes before the first equals sign, which is the name.
    have hname : (key ++ '=' :: rest).takeWhile (· ≠ '=') = key := by
      rw [List.takeWhile_append_of_pos (by simpa using fun c hc => (hkey c hc).2)]
      simp
    have hspace : ' ' ∈ key := by
      rw [← hname, heq]
      simp
    exact absurd (hkey ' ' hspace).1 (by decide)
  · rfl

theorem unquote_quoted (q : Char) (hq : q = '"' ∨ q = '\'') (v : List Char) :
    unquote (q :: (v ++ [q])) = v := by
  have hlast : (q :: (v ++ [q])).getLast? = some q := by
    rw [← List.cons_append, List.getLast?_concat]
  have hlen : 2 ≤ (q :: (v ++ [q])).length := by simp
  rw [unquote, if_pos]
  · simp
  · refine ⟨hlen, ?_⟩
    rcases hq with rfl | rfl
    · exact .inl ⟨rfl, hlast⟩
    · exact .inr ⟨rfl, hlast⟩

/-- Every value can be given to every name: between quotes, whatever it has in it. -/
theorem parseLine_quoted {key : String} (hkey : Name key) {q : Char} (hq : q = '"' ∨ q = '\'')
    (value : String) :
    parseLine (String.ofList (key.toList ++ '=' :: q :: (value.toList ++ [q]))) =
      some (key, value) := by
  obtain ⟨hne, hcomment, hletters⟩ := hkey
  have hquote : isSpace q = false := by rcases hq with rfl | rfl <;> decide
  obtain ⟨c, cs, hcs⟩ : ∃ c cs, key.toList = c :: cs := by
    cases hlist : key.toList with
    | nil => exact absurd (String.toList_inj.mp hlist) hne
    | cons c cs => exact ⟨c, cs, rfl⟩
  have hc := hletters c (hcs ▸ List.mem_cons_self)
  have hline : trimSpace (String.ofList (key.toList ++ '=' :: q :: (value.toList ++ [q]))) =
      String.ofList (key.toList ++ '=' :: q :: (value.toList ++ [q])) := by
    refine trimSpace_of_ends (a := c) (b := q) ?_ ?_ hc.1 hquote
    · rw [hcs]
      rfl
    · simp [List.getLast?_append, List.getLast?_cons]
  have hvalue : trimSpace (String.ofList (q :: (value.toList ++ [q]))) =
      String.ofList (q :: (value.toList ++ [q])) := by
    refine trimSpace_of_ends (a := q) (b := q) rfl ?_ hquote hquote
    simp [List.getLast?_append, List.getLast?_cons]
  have hcut : cut '=' (key.toList ++ '=' :: q :: (value.toList ++ [q])) =
      some (key.toList, q :: (value.toList ++ [q])) :=
    cut_append fun hin => (hletters _ hin).2 rfl
  rw [parseLine, hline, String.toList_ofList]
  split
  · next heq => simp at heq
  · next heq =>
    rw [hcs, List.cons_append] at heq
    rw [hcs, (List.cons.inj heq).1] at hcomment
    exact absurd rfl hcomment
  · rw [trimExport_name hletters, hcut]
    simp only [hvalue, String.toList_ofList, unquote_quoted q hq, String.ofList_toList]
    rw [trimSpace_eq_self fun c hc => (hletters c hc).1]

theorem parseLine_quoted_hash : parseLine (String.ofList ("KEY".toList ++
    '=' :: '"' :: ("a #'b\" = ".toList ++ ['"']))) = some ("KEY", "a #'b\" = ") :=
  parseLine_quoted (by decide) (.inl rfl) _

/-! ## A file -/

/-- The settings of a process. -/
abbrev Env := String → Option String

/-- Why a file is not loaded. -/
inductive LoadError
  | «open» (path err : String)
  | malformed (path : String) (line : ℕ)
  | set (key : String)
  | read (path err : String)
  deriving DecidableEq

/-- The system takes no text with a zero in it. -/
def setenv (env : Env) (key value : String) : Option Env :=
  if '\x00' ∈ key.toList ∨ '\x00' ∈ value.toList then none
  else some (Function.update env key (some value))

/-- The lines of a file from one on, which may end where it cannot be read any further. -/
def loadLines (path : String) (readErr : Option String) :
    ℕ → List String → Env → Except LoadError Unit × Env
  | _, [], env => (match readErr with
    | some err => .error (.read path err)
    | none => .ok (), env)
  | n, raw :: rest, env =>
    match parseLine raw with
    | none => loadLines path readErr (n + 1) rest env
    | some (key, value) =>
      if key = "" then (.error (.malformed path n), env)
      else if (env key).isSome then loadLines path readErr (n + 1) rest env
      else match setenv env key value with
        | none => (.error (.set key), env)
        | some env => loadLines path readErr (n + 1) rest env

/-- What a path leads to. -/
inductive File
  | unopened (err : String)
  | contents (lines : List String) (readErr : Option String)

/-- The settings of a file, which need not be there. -/
def load (path : String) (file : Option File) (env : Env) : Except LoadError Unit × Env :=
  match file with
  | none => (.ok (), env)
  | some (.unopened err) => (.error (.open path err), env)
  | some (.contents lines readErr) => loadLines path readErr 1 lines env

/-- The first file of a name, in a directory or the nearest one above it. -/
def loadNearest (dirs : List (String × Option File)) (env : Env) : Except LoadError Unit × Env :=
  match dirs.find? fun d => d.2.isSome with
  | none => (.ok (), env)
  | some (path, file) => load path file env

/-- A process starts with its environment, then what its own file adds, then the shared one. -/
def settings (locals shared : List (String × Option File)) (env : Env) :
    Except LoadError Unit × Env :=
  match loadNearest locals env with
  | (.error e, env) => (.error e, env)
  | (.ok (), env) => loadNearest shared env

/-! ## What is set -/

/-- The value the first line with a name gives it. -/
def assigned (lines : List String) (key : String) : Option String :=
  ((lines.filterMap parseLine).find? fun p => p.1 = key).map Prod.snd

/-- The lines of the file that is loaded. -/
def linesOf (dirs : List (String × Option File)) : List String :=
  match dirs.find? fun d => d.2.isSome with
  | some (_, some (.contents lines _)) => lines
  | _ => []

variable {path : String} {readErr : Option String} {lines : List String} {env env' : Env} {n : ℕ}
  {key value raw : String}

theorem assigned_cons_none (h : parseLine raw = none) :
    assigned (raw :: lines) = assigned lines := by
  ext1 key
  rw [assigned, List.filterMap_cons_none h, assigned]

theorem assigned_cons (h : parseLine raw = some (key, value)) (k : String) :
    assigned (raw :: lines) k = if key = k then some value else assigned lines k := by
  rw [assigned, List.filterMap_cons_some h, assigned]
  by_cases hk : key = k
  · simp [hk]
  · simp [hk]

/-- What is set stays, and each line adds its name where it has no value yet. -/
theorem env_of_loadLines (h : loadLines path readErr n lines env = (.ok (), env')) (k : String) :
    env' k = (env k).or (assigned lines k) := by
  induction lines generalizing n env with
  | nil =>
    obtain ⟨-, rfl⟩ := Prod.mk.inj h
    exact (Option.or_none).symm
  | cons raw lines ih =>
    rw [loadLines] at h
    split at h
    · next hnone =>
      rw [ih h, assigned_cons_none hnone]
    · next key value hsome =>
      rw [assigned_cons hsome]
      split at h
      · cases h
      · split at h
        · next hset =>
          obtain ⟨old, hold⟩ := Option.isSome_iff_exists.mp hset
          rw [ih h]
          by_cases hk : key = k
          · subst hk
            simp [hold]
          · rw [if_neg hk]
        · next hunset =>
          split at h
          · cases h
          · next later hlater =>
            have hupdate : later = Function.update env key (some value) := by
              rw [setenv] at hlater
              split at hlater
              · cases hlater
              · exact (Option.some.inj hlater).symm
            rw [ih h, hupdate, Function.update_apply]
            by_cases hk : key = k
            · subst hk
              have hnone : env key = none := by simpa using hunset
              simp [hnone]
            · rw [if_neg hk, if_neg (Ne.symm hk)]

theorem env_of_loadNearest {dirs : List (String × Option File)}
    (h : loadNearest dirs env = (.ok (), env')) (k : String) :
    env' k = (env k).or (assigned (linesOf dirs) k) := by
  rw [loadNearest] at h
  rw [linesOf]
  split at h
  · next hnone =>
    obtain ⟨-, rfl⟩ := Prod.mk.inj h
    simp [hnone, assigned]
  · next path file hfile =>
    rw [hfile]
    rcases file with _ | ⟨err⟩ | ⟨lines, readErr⟩
    · obtain ⟨-, rfl⟩ := Prod.mk.inj h
      simp [assigned]
    · cases h
    · exact env_of_loadLines h k

/-- A process that starts has every value of its environment, and of its files every first line for
a name that has no value before: its own file comes before the shared one. -/
theorem settings_in_order {locals shared : List (String × Option File)}
    (h : settings locals shared env = (.ok (), env')) (k : String) :
    env' k = ((env k).or (assigned (linesOf locals) k)).or (assigned (linesOf shared) k) := by
  rw [settings] at h
  split at h
  · cases h
  · next env₁ hlocal =>
    rw [env_of_loadNearest h, env_of_loadNearest hlocal]

/-- A process that runs beside a hosted one, with a key of its own. -/
def besideHosted : List (String × Option File) :=
  [(".env.local", some (.contents ["PERPL_API_KEY=own", "PERPL_API_KEY=other"] none))]

def sharedFile : List (String × Option File) :=
  [("cmd/.env", none), (".env", some (.contents ["# keys", "PERPL_API_KEY=shared", "PORT=8080"] none))]

def bare : Env := fun _ => none

theorem settings_in_order_local :
    (settings besideHosted sharedFile bare).2 "PERPL_API_KEY" =
      ((bare "PERPL_API_KEY").or (assigned (linesOf besideHosted) "PERPL_API_KEY")).or
        (assigned (linesOf sharedFile) "PERPL_API_KEY") := by
  have hstart : (settings besideHosted sharedFile bare).1.toOption = some () := by decide +kernel
  refine settings_in_order ?_ "PERPL_API_KEY"
  cases hrun : settings besideHosted sharedFile bare with
  | mk out env =>
    rw [hrun] at hstart
    cases out with
    | error e => cases hstart
    | ok u => rfl

end SuperAgent.Envfile
