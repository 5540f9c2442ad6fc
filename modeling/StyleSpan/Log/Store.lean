import StyleSpan.Text.Basic

/-!
# StyleSpan.Log.Store

Where logged lines end up: the two standard streams, and files, which are
written through streams opened for append.  Streams are numbered in the
order in which they are opened, and a number is never given out twice.

Which paths can be opened, and which files they lead to, is up to the world
around, and may change; `Paths` says how it is at the moment.  A stream stays
with the file that its path led to when it was opened.

* `stream_openAppend?` — an opened stream is new, and opening closes nothing;
* `lookup_openAppend?` — opening makes a file, and keeps what it holds;
* `lookup_append` — what is written to an open stream is at the end of its file.
-/

namespace StyleSpan

open Text

/-! ## Paths -/

/-- Where paths lead: to the file that is opened when a path is opened for
append, which may have to be made, and to the one that is read.  A path that
leads nowhere cannot be opened. -/
structure Paths where
  appendTo? : Text → Option Text
  readFrom? : Text → Option Text

namespace Paths

/-- The number of bytes that a path can have. -/
def pathCapacity : Nat := 4095

/-- The number of bytes that the name of a file can have. -/
def nameCapacity : Nat := 255

/-- Whether a piece of a path between slashes stays in the directory. -/
def stays (piece : Text) : Bool := piece = [] || piece = [dot]

/-- Whether a piece of a path between slashes can be the name of a file. -/
def isFileName (piece : Text) : Bool :=
  !stays piece && piece ≠ [dot, dot] && piece.length ≤ nameCapacity

/-- The name of the file that a path leads to in a directory without others
inside: its last piece, if all pieces before it stay.  A path from the root of
all directories, and one that steps into a directory or out of this one, leads
to no file. -/
def fileName? (path : Text) : Option Text :=
  if path.head? = some slash ∨ pathCapacity < path.length then none
  else match (pieces slash path).reverse with
    | [] => none
    | name :: steps => if isFileName name && steps.all stays then some name else none

/-- The paths of a single directory.  A path may take steps that stay in it, so
a file has more than one path. -/
def flat : Paths := ⟨fileName?, fileName?⟩

end Paths

/-! ## Streams -/

/-- A stream to write to; `file id` is the stream opened as number `id`. -/
inductive Stream where
  | stdout
  | stderr
  | file (id : Nat)
deriving DecidableEq, Repr

/-- The path that a stream was opened by, and the file that it led to. -/
structure Opening where
  path : Text
  file : Text
deriving DecidableEq, Repr

/-- Where paths lead, and what was written so far: the files by name, and what
went to the standard streams.  `opened` tells how the streams were opened, by
number, and `closed` holds the numbers of those closed, in order. -/
structure Store where
  paths : Paths := .flat
  files : List (Text × Text) := []
  opened : List Opening := []
  closed : List Nat := []
  stdout : Text := []
  stderr : Text := []

namespace Store

/-! ## Files -/

/-- The files with the content of the one named `name` replaced, or added at
the end. -/
def replaceContent (name content : Text) : List (Text × Text) → List (Text × Text)
  | [] => [(name, content)]
  | file :: more =>
    if file.1 = name then (name, content) :: more
    else file :: replaceContent name content more

/-- Gives a file a content. -/
def put (s : Store) (file content : Text) : Store :=
  { s with files := replaceContent file content s.files }

/-- What a file holds; a file that is still to be made holds nothing. -/
def content (s : Store) (file : Text) : Text := (s.files.lookup file).getD []

/-- The content of the file that a path leads to. -/
def read? (s : Store) (path : Text) : Option Text :=
  (s.paths.readFrom? path).bind fun file => s.files.lookup file

/-- Gives the file that a path leads to a content. -/
def write (s : Store) (path content : Text) : Store :=
  (s.paths.appendTo? path).elim s fun file => s.put file content

/-! ## Writing through streams -/

/-- Whether a path can be opened for append. -/
def canOpen (s : Store) (path : Text) : Bool := (s.paths.appendTo? path).isSome

/-- Opens a stream that appends to a file, which is made if need be. -/
def openAppend? (s : Store) (path : Text) : Option (Stream × Store) :=
  (s.paths.appendTo? path).map fun file =>
    (.file s.opened.length,
      { s.put file (s.content file) with opened := s.opened ++ [⟨path, file⟩] })

/-- Whether a stream can be written to. -/
def isOpen (s : Store) : Stream → Bool
  | .stdout => true
  | .stderr => true
  | .file id => id < s.opened.length && id ∉ s.closed

/-- Closes a stream; the standard streams stay open. -/
def close (s : Store) : Stream → Store
  | .stdout => s
  | .stderr => s
  | .file id => { s with closed := s.closed ++ [id] }

/-- Appends to what was written to a stream; nothing is written to a closed one. -/
def append (s : Store) (stream : Stream) (t : Text) : Store :=
  match stream with
  | .stdout => { s with stdout := s.stdout ++ t }
  | .stderr => { s with stderr := s.stderr ++ t }
  | .file id =>
    match s.opened[id]? with
    | some o => if id ∈ s.closed then s else s.put o.file (s.content o.file ++ t)
    | none => s

/-! ## What files hold afterwards -/

variable {s t : Store} {path : Text} {stream : Stream} {id : Nat} {o : Opening}

/-- A file stream is open from its opening until it is closed. -/
theorem isOpen_file_iff : s.isOpen (.file id) = true ↔ id < s.opened.length ∧ id ∉ s.closed := by
  simp [isOpen]

/-- The content that was put in place is the one that is found. -/
theorem lookup_replaceContent (name content : Text) (files : List (Text × Text)) :
    (replaceContent name content files).lookup name = some content := by
  induction files with
  | nil => simp [replaceContent]
  | cons file more ih =>
    rw [replaceContent]
    split
    · simp
    · rename_i h
      rw [List.lookup_cons]
      simp [beq_false_of_ne (Ne.symm h), ih]

/-- A path can be opened if it leads to a file. -/
theorem exists_openAppend? (h : s.canOpen path = true) :
    ∃ next, s.openAppend? path = some next := by
  obtain ⟨file, hfile⟩ := Option.isSome_iff_exists.mp h
  exact ⟨_, by rw [openAppend?, hfile, Option.map_some]⟩

/-- A path that leads nowhere opens nothing. -/
theorem openAppend?_of_not_canOpen (h : s.canOpen path = false) : s.openAppend? path = none := by
  rw [canOpen, Option.isSome_eq_false_iff, Option.isNone_iff_eq_none] at h
  rw [openAppend?, h, Option.map_none]

/-- An opened stream is a file stream that was not there before. -/
theorem stream_openAppend? (h : s.openAppend? path = some (stream, t)) :
    stream = .file s.opened.length ∧ t.closed = s.closed ∧
      ∃ file, s.paths.appendTo? path = some file ∧ t.opened = s.opened ++ [⟨path, file⟩] := by
  obtain ⟨file, hfile, hnext⟩ := Option.map_eq_some_iff.mp h
  cases hnext
  exact ⟨rfl, rfl, file, hfile, rfl⟩

/-- Opening a stream makes its file and keeps what it holds. -/
theorem lookup_openAppend? {file : Text} (hfile : s.paths.appendTo? path = some file)
    (h : s.openAppend? path = some (stream, t)) : t.files.lookup file = some (s.content file) := by
  rw [openAppend?, hfile, Option.map_some] at h
  cases h
  exact lookup_replaceContent file _ s.files

/-- What is written to an open stream is behind what its file held. -/
theorem lookup_append (hopen : s.isOpen (.file id) = true) (ho : s.opened[id]? = some o)
    (t : Text) : (s.append (.file id) t).files.lookup o.file = some (s.content o.file ++ t) := by
  rw [append, ho]
  dsimp only
  rw [if_neg (isOpen_file_iff.mp hopen).2]
  exact lookup_replaceContent o.file _ s.files

/-- Closing a stream takes back no opening. -/
@[simp] theorem opened_close (s : Store) (stream : Stream) :
    (s.close stream).opened = s.opened := by
  cases stream <;> rfl

/-- Closing a stream changes no file. -/
@[simp] theorem files_close (s : Store) (stream : Stream) : (s.close stream).files = s.files := by
  cases stream <;> rfl

/-- Writing opens no stream. -/
@[simp] theorem opened_append (s : Store) (stream : Stream) (t : Text) :
    (s.append stream t).opened = s.opened := by
  cases stream with
  | stdout | stderr => rfl
  | file id =>
    rw [append]
    split
    · split <;> rfl
    · rfl

/-- Writing closes no stream. -/
@[simp] theorem closed_append (s : Store) (stream : Stream) (t : Text) :
    (s.append stream t).closed = s.closed := by
  cases stream with
  | stdout | stderr => rfl
  | file id =>
    rw [append]
    split
    · split <;> rfl
    · rfl

end Store

end StyleSpan
