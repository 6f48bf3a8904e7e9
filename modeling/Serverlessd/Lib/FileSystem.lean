import Mathlib.Data.List.Basic
import Mathlib.Logic.Function.Basic

namespace FileSystem

structure File where
  components : List (List Char)
  deriving DecidableEq

namespace Path

variable {cwd : File} {base arg leaf : List Char}

def Absolute (path : List Char) : Prop := path.head? = some '/'

instance (path : List Char) : Decidable (Absolute path) :=
  inferInstanceAs (Decidable (path.head? = some '/'))

def join (base arg : List Char) : List Char :=
  if Absolute arg then arg
  else if base.getLast? = none ∨ base.getLast? = some '/' then base ++ arg
  else base ++ '/' :: arg

def components (path : List Char) : List (List Char) :=
  (path.splitOnP (· = '/')).filter fun c => c ≠ [] ∧ c ≠ ['.']

def walk (dir : List (List Char)) (component : List Char) : List (List Char) :=
  if component = ['.', '.'] then dir.dropLast else dir ++ [component]

def resolve (cwd : File) (path : List Char) : File :=
  ⟨(components path).foldl walk (if Absolute path then [] else cwd.components)⟩

structure Leaf (path : List Char) : Prop where
  noSep : '/' ∉ path
  ne_nil : path ≠ []
  ne_dot : path ≠ ['.']
  ne_dots : path ≠ ['.', '.']

theorem Leaf.not_absolute (h : Leaf leaf) : ¬ Absolute leaf := by
  intro ha
  exact h.noSep (List.mem_of_mem_head? ha)

theorem components_append_sep (path rest : List Char) :
    components (path ++ '/' :: rest) = components path ++ components rest := by
  rw [components, @List.splitOnP_append_cons _ (· = '/') path rest '/' (by simp), List.filter_append]
  rfl

theorem Leaf.components (h : Leaf leaf) : components leaf = [leaf] := by
  have hsplit : leaf.splitOnP (· = '/') = [leaf] :=
    List.splitOnP_eq_singleton fun c hc => by
      simpa using fun he : c = '/' => h.noSep (he ▸ hc)
  simp [Path.components, hsplit, h.ne_nil, h.ne_dot]

theorem resolve_join (h : ¬ Absolute arg) (hb : base ≠ []) :
    resolve cwd (join base arg) = ⟨(components arg).foldl walk (resolve cwd base).components⟩ := by
  have hhead : ∀ rest, Absolute (base ++ rest) ↔ Absolute base := by
    intro rest
    obtain ⟨c, cs, rfl⟩ := List.exists_cons_of_ne_nil hb
    simp [Absolute]
  have hlast : base.getLast? ≠ none := by simpa using hb
  simp only [join, if_neg h, hlast, false_or, resolve]
  split
  · rename_i hsep
    obtain ⟨dir, rfl⟩ : ∃ dir, base = dir ++ ['/'] := by
      obtain ⟨dir, c, rfl⟩ := List.eq_nil_or_concat base |>.resolve_left hb
      obtain rfl : c = '/' := by simpa using hsep
      exact ⟨dir, by simp⟩
    have hnil : components [] = [] := rfl
    have harg := hhead arg
    simp only [List.append_assoc, List.singleton_append] at harg
    simp only [harg, List.append_assoc, List.singleton_append, components_append_sep, hnil,
      List.append_nil, List.foldl_append]
  · simp only [hhead, components_append_sep, List.foldl_append]

theorem resolve_join_eq (hb : base ≠ []) :
    resolve cwd (join base arg) = resolve (resolve cwd base) arg := by
  by_cases h : Absolute arg
  · simp [join, resolve, h]
  · rw [resolve_join h hb]
    simp [resolve, h]

theorem resolve_join_leaf (h : Leaf leaf) (hb : base ≠ []) :
    resolve cwd (join base leaf) = ⟨(resolve cwd base).components ++ [leaf]⟩ := by
  rw [resolve_join h.not_absolute hb, h.components]
  simp [walk, h.ne_dots]

theorem exists_last_sep (path : List Char) :
    ∃ leaf, '/' ∉ leaf ∧ (path = leaf ∨ ∃ dir, path = dir ++ '/' :: leaf) := by
  induction path with
  | nil => exact ⟨[], by simp, .inl rfl⟩
  | cons c path ih =>
    obtain ⟨leaf, hsep, rfl | ⟨dir, rfl⟩⟩ := ih
    · by_cases hc : c = '/'
      · exact ⟨path, hsep, .inr ⟨[], by simp [hc]⟩⟩
      · exact ⟨c :: path, by simp [hsep, Ne.symm hc], .inl rfl⟩
    · exact ⟨leaf, hsep, .inr ⟨c :: dir, rfl⟩⟩

theorem resolve_append {extension : List Char}
    (h : ∀ leaf, '/' ∉ leaf → Leaf (leaf ++ extension)) (path : List Char) :
    ∃ dirs leaf, resolve cwd (path ++ extension) = ⟨dirs ++ [leaf ++ extension]⟩ := by
  obtain ⟨leaf, hsep, hpath⟩ := exists_last_sep path
  have hleaf := h leaf hsep
  have hcomponents : ∃ dirs, components (path ++ extension) = dirs ++ [leaf ++ extension] := by
    obtain rfl | ⟨dir, rfl⟩ := hpath
    · exact ⟨[], hleaf.components⟩
    · refine ⟨components dir, ?_⟩
      rw [List.append_assoc, List.cons_append, components_append_sep, hleaf.components]
  obtain ⟨dirs, hdirs⟩ := hcomponents
  refine ⟨dirs.foldl walk (if Absolute (path ++ extension) then [] else cwd.components), leaf, ?_⟩
  rw [resolve, hdirs, List.foldl_append]
  simp [walk, hleaf.ne_dots]

end Path

inductive Call
  | exists (path : List Char)
  | createDirAll (path : List Char)
  | write (file : File)
  | read (file : File)
  | remove (file : File)
  deriving DecidableEq

end FileSystem

structure FileSystem where
  cwd : FileSystem.File
  files : FileSystem.File → Option ByteArray
  calls : List FileSystem.Call := []

namespace FileSystem

inductive WriteOutcome
  | ok
  | openFailed
  | failedAfter (written : Nat)
  deriving DecidableEq

def WriteOutcome.written (content : ByteArray) : WriteOutcome → ByteArray
  | failedAfter written => content.extract 0 written
  | ok | openFailed => content

inductive RemoveOutcome
  | ok
  | failed (left : List File)
  deriving DecidableEq

def RemoveOutcome.left : RemoveOutcome → List File
  | ok => []
  | failed left => left

def File.Below (dir file : File) : Prop := dir.components <+: file.components ∧ file ≠ dir

instance (dir file : File) : Decidable (File.Below dir file) :=
  inferInstanceAs (Decidable (_ ∧ _))

variable (fs : FileSystem)

def call (c : Call) : FileSystem := { fs with calls := fs.calls ++ [c] }

def resolve (path : List Char) : File := Path.resolve fs.cwd path

def put (file : File) (content : Option ByteArray) : FileSystem :=
  { fs with files := Function.update fs.files file content }

/-- A path with a zero byte is refused before any call is made. -/
def hasNul (path : List Char) : Bool := path.contains '\x00'

def write (path : List Char) (content : ByteArray) (outcome : WriteOutcome) : FileSystem × Bool :=
  if hasNul path then (fs, false)
  else
    let file := fs.resolve path
    let fs := fs.call (.write file)
    match outcome with
    | .ok => (fs.put file (some content), true)
    | .openFailed => (fs, false)
    | .failedAfter written => (fs.put file (some (content.extract 0 written)), false)

def read (path : List Char) (ok : Bool) : FileSystem × Option ByteArray :=
  if hasNul path then (fs, none)
  else
    let file := fs.resolve path
    (fs.call (.read file), if ok then fs.files file else none)

def remove (path : List Char) (ok : Bool) : FileSystem :=
  if hasNul path then fs
  else
    let file := fs.resolve path
    let fs := fs.call (.remove file)
    if ok then fs.put file none else fs

/-- `remove_dir_all`, without its calls; the directory need not exist. -/
def removeDirAll (path : List Char) (outcome : RemoveOutcome) : FileSystem :=
  if hasNul path then fs
  else
    let dir := fs.resolve path
    { fs with files := fun file => if dir.Below file ∧ file ∉ outcome.left then none else fs.files file }

section Laws

variable {fs : FileSystem} {path : List Char} {content : ByteArray} {outcome : WriteOutcome}
variable {ok : Bool} {file : File}

@[simp] theorem call_files (c : Call) : (fs.call c).files = fs.files := rfl
@[simp] theorem call_cwd (c : Call) : (fs.call c).cwd = fs.cwd := rfl
@[simp] theorem put_cwd (content : Option ByteArray) : (fs.put file content).cwd = fs.cwd := rfl

@[simp] theorem put_self (content : Option ByteArray) : (fs.put file content).files file = content :=
  Function.update_self ..

theorem put_of_ne {other : File} (h : other ≠ file) (content : Option ByteArray) :
    (fs.put file content).files other = fs.files other :=
  Function.update_of_ne h ..

@[simp] theorem write_cwd : (fs.write path content outcome).1.cwd = fs.cwd := by
  unfold write
  split
  · rfl
  · cases outcome <;> rfl

@[simp] theorem remove_cwd : (fs.remove path ok).cwd = fs.cwd := by
  unfold remove
  split
  · rfl
  · cases ok <;> rfl

@[simp] theorem read_cwd : (fs.read path ok).1.cwd = fs.cwd := by
  unfold read
  split <;> rfl

@[simp] theorem read_files : (fs.read path ok).1.files = fs.files := by
  unfold read
  split <;> rfl

theorem write_of_ne (h : file ≠ fs.resolve path) :
    (fs.write path content outcome).1.files file = fs.files file := by
  unfold write
  split
  · rfl
  · cases outcome with
    | openFailed => rfl
    | ok | failedAfter => exact put_of_ne h _

theorem write_openFailed : (fs.write path content .openFailed).1.files = fs.files := by
  unfold write
  split <;> rfl

theorem write_changed (h : (fs.write path content outcome).1.files file ≠ fs.files file) :
    file = fs.resolve path ∧
      (fs.write path content outcome).1.files file = some (outcome.written content) := by
  have hfile : file = fs.resolve path := by
    by_contra hne
    exact h (write_of_ne hne)
  subst hfile
  refine ⟨rfl, ?_⟩
  unfold write at h ⊢
  split at h
  · exact absurd rfl h
  · rename_i hn
    rw [if_neg hn]
    cases outcome with
    | openFailed => exact absurd rfl h
    | ok | failedAfter => exact put_self _

theorem remove_files : (fs.remove path ok).files file =
    if ok && !hasNul path && fs.resolve path = file then none else fs.files file := by
  unfold remove
  cases hasNul path <;> cases ok <;> simp [put, Function.update_apply, eq_comm]

theorem remove_of_ne (h : file ≠ fs.resolve path) : (fs.remove path ok).files file = fs.files file := by
  rw [remove_files]
  simp [Ne.symm h]

@[simp] theorem removeDirAll_cwd {outcome : RemoveOutcome} :
    (fs.removeDirAll path outcome).cwd = fs.cwd := by
  unfold removeDirAll
  split <;> rfl

theorem removeDirAll_ok (hn : hasNul path = false) (h : (fs.resolve path).Below file) :
    (fs.removeDirAll path .ok).files file = none := by
  simp [removeDirAll, hn, h, RemoveOutcome.left]

theorem write_ok (hn : hasNul path = false) (h : (fs.write path content outcome).2 = true) :
    (fs.write path content outcome).1.files (fs.resolve path) = some content := by
  cases outcome with
  | ok => simp [write, hn]
  | openFailed | failedAfter => simp [write, hn] at h

theorem write_eq (h : (fs.write path content outcome).2 = true) :
    (fs.write path content outcome).1 =
      (fs.call (.write (fs.resolve path))).put (fs.resolve path) (some content) := by
  cases hn : hasNul path with
  | true => simp [write, hn] at h
  | false =>
    cases outcome with
    | ok => simp [write, hn]
    | openFailed | failedAfter => simp [write, hn] at h

theorem read_eq_some (h : (fs.read path ok).2 = some content) :
    fs.files (fs.resolve path) = some content ∧
      (fs.read path ok).1 = fs.call (.read (fs.resolve path)) := by
  cases hn : hasNul path with
  | true => simp [read, hn] at h
  | false =>
    cases ok with
    | true => simpa [read, hn] using h
    | false => simp [read, hn] at h

theorem write_calls (hn : hasNul path = false) :
    (fs.write path content outcome).1.calls = fs.calls ++ [.write (fs.resolve path)] := by
  cases outcome <;> simp [write, hn, put, call]

theorem remove_calls (hn : hasNul path = false) :
    (fs.remove path ok).calls = fs.calls ++ [.remove (fs.resolve path)] := by
  cases ok <;> simp [remove, hn, put, call]

theorem read_calls (hn : hasNul path = false) :
    (fs.read path ok).1.calls = fs.calls ++ [.read (fs.resolve path)] := by
  simp [read, hn, call]

end Laws

end FileSystem
