import Blockwise.Proofs.Volume.Disk.Tree
import Blockwise.Proofs.Volume.Files

namespace Blockwise

open Act Disk

namespace DiskStore

variable {α : Type} {root : List String} {base : Path} {s : DiskStore} {files : Files}
  {name : String} {tree : Tree} {number : Nat}

-- A store that is open on a root, at the end of which are the given files.
structure Holds (root : List String) (base : Path) (s : DiskStore) (files : Files) : Prop where
  still_open : s.closed = false
  root_eq : s.root = root
  shows : s.tree.Shows root base files

-- A name for a file below a root.
structure Good (root : List String) (name : String) : Prop where
  plain : Plain name
  fits : Fits root name

instance (root : List String) (name : String) : Decidable (Good root name) :=
  decidable_of_iff (Plain name ∧ Fits root name) ⟨fun ⟨h₁, h₂⟩ => ⟨h₁, h₂⟩, fun ⟨h₁, h₂⟩ => ⟨h₁, h₂⟩⟩

theorem requireOpen_ok (h : s.closed = false) : requireOpen s = .ok () s := by
  rw [requireOpen, get_bind, h]
  rfl

theorem ask_ok {blame : IoCause → StorageError} {f : DiskStore → Except IoCause α} {a : α}
    (h : f s = .ok a) : ask blame f s = .ok a s := by
  rw [ask, get_bind, h]
  rfl

theorem ask_error {blame : IoCause → StorageError} {f : DiskStore → Except IoCause α}
    {cause : IoCause} (h : f s = .error cause) : ask blame f s = .error (.error (blame cause)) s := by
  rw [ask, get_bind, h]
  rfl

theorem Holds.path_eq (h : s.Holds root base files) (hgood : Good root name) :
    s.path name = root ++ [name] := by
  rw [path, h.root_eq, hgood.plain.join]

theorem Holds.withTree {files' : Files} (h : s.Holds root base files)
    (hshows : tree.Shows root base files') : Holds root base { s with tree } files' :=
  ⟨h.still_open, h.root_eq, hshows⟩

-- A file is found with its bytes, or missing under its own name.
theorem Holds.find (h : s.Holds root base files) (hgood : Good root name) :
    (∃ e, DiskStore.find name s = .error e s ∧ Files.find name files = .error e files) ∨
      ∃ number, DiskStore.find name s = .ok (.file number) s ∧
        Files.find name files = .ok (s.tree.content number).data files := by
  have hfind := h.shows.find hgood.plain hgood.fits
  rw [← h.path_eq hgood] at hfind
  obtain ⟨hnone, hfind⟩ | ⟨number, hfind, hsome⟩ := hfind
  · exact .inl ⟨.error (.fileNotFound name),
      ask_error (f := fun s => s.tree.find (s.path name)) hfind, Files.find_none hnone⟩
  · exact .inr ⟨number, ask_ok (f := fun s => s.tree.find (s.path name)) hfind,
      Files.find_some hsome⟩

theorem delete_matches (hgood : Good root name) :
    Matches (Holds root base) Eq (delete name) (Files.delete name) := by
  refine .skip (fun s files h => requireOpen_ok h.still_open) fun s files h => ?_
  have hunlink := h.shows.unlink hgood.plain hgood.fits
  rw [← h.path_eq hgood] at hunlink
  obtain ⟨hnone, hunlink⟩ | ⟨tree, hunlink, hsome, hshows⟩ := hunlink
  · rw [bind_error (ask_error hunlink), Files.delete, bind_error (Files.find_none hnone)]
    exact .error h
  · obtain ⟨data, hdata⟩ := Option.ne_none_iff_exists'.mp hsome
    rw [bind_ok (ask_ok hunlink), Files.delete, bind_ok (Files.find_some hdata)]
    exact .ok rfl (h.withTree hshows)

theorem deliver_whole (data : Bytes) : deliver data 0 data.size = ⟨data, none⟩ := by
  simp only [deliver, Bytes.slice_whole]
  rw [if_neg (Nat.lt_irrefl _)]

theorem readAt_whole {data : Bytes} (hdata : (s.tree.content number).data = data) (name : String) :
    readAt ⟨name, some number, data.size⟩ 0 data.size s = (⟨data, none⟩, s) := by
  have hin : readPastEof name 0 data.size data.size = none := by
    rw [readPastEof, if_neg (by omega)]
  simp only [readAt, hin, hdata, deliver_whole]

theorem readWhole_matches (hgood : Good root name) (purpose : Purpose) :
    Matches (Holds root base) Eq (volume.readWhole feed name purpose) (Files.find name) := by
  intro s files h
  have hopen : volume.openInput name purpose s = openFile name s :=
    bind_ok (requireOpen_ok h.still_open)
  obtain ⟨e, hfind, hmissing⟩ | ⟨number, hfind, hfound⟩ := h.find hgood
  · have hread : volume.readWhole feed name purpose s = .error e s :=
      bind_error (hopen.trans (bind_error hfind))
    rw [hread, hmissing]
    exact .error h
  · have hopened : volume.openInput name purpose s =
        .ok ⟨name, some number, (s.tree.content number).data.size⟩ s := hopen.trans (bind_ok hfind)
    have hread : volume.readWhole feed name purpose s = .ok (s.tree.content number).data s := by
      refine (bind_ok hopened).trans ((bind_ok (modifyGet_apply _)).trans ?_)
      simp only [feed, readAt_whole rfl]
      rfl
    rw [hread, hfound]
    exact .ok rfl h

-- Whether the data goes past the buffer or through it, it ends up at the start of the file.
theorem writeBuffered_fresh (name : String) (number : Nat) (data : Bytes) (s : DiskStore) :
    (writeBuffered data { name, number } s).1.closed = false ∧
      (flushBuffer (writeBuffered data { name, number } s).1
        (writeBuffered data { name, number } s).2).2 =
          { s with tree := s.tree.writeAt number 0 data } := by
  simp only [writeBuffered, flushBuffer, writeDirect, Tree.writeAt_empty, ByteArray.size_empty,
    Nat.add_zero, Nat.zero_add]
  split <;> split <;> simp [Tree.writeAt_empty]

-- A write and a close of a new output write all of it at the start of the file.
theorem writeWhole_ok (hopen : s.closed = false) (purpose : Purpose) (data : Bytes)
    (hcreate : s.tree.create (s.path name) = .ok (number, tree)) :
    volume.writeWhole sink name purpose data s =
      .ok () { s with tree := tree.writeAt number 0 data } := by
  have hcreated : volume.create name purpose s = .ok { name, number } { s with tree } :=
    (bind_ok (requireOpen_ok hopen)).trans
      (bind_ok (ask_ok (f := fun s => s.tree.create (s.path name)) hcreate))
  obtain ⟨hclosed, hflushed⟩ := writeBuffered_fresh name number data { s with tree }
  refine (bind_ok hcreated).trans ?_
  generalize hwritten : writeBuffered data { name, number } { s with tree } = w at hclosed hflushed
  obtain ⟨out, t⟩ := w
  have hwrite : sink.write data ({ name, number }, { s with tree }) =
      .ok () ({ out with written := out.written + data.size }, t) := by
    have hrun : sink.write data ({ name, number }, { s with tree }) =
        let w := writeBuffered data { name, number } { s with tree }
        .ok () ({ w.1 with written := w.1.written + data.size }, w.2) := rfl
    rw [hrun, hwritten]
  have hclose : sink.close ({ out with written := out.written + data.size }, t) =
      .ok () ({ (flushBuffer out t).1 with written := out.written + data.size, closed := true },
        (flushBuffer out t).2) := by
    obtain ⟨_, _, _, _, _, closed⟩ := out
    obtain rfl : closed = false := hclosed
    rfl
  rw [← hflushed]
  unfold Sink.during
  rw [(bind_ok hwrite).trans hclose]
  rfl

theorem writeWhole_matches (hgood : Good root name) (purpose : Purpose) (data : Bytes) :
    Matches (Holds root base) Eq (volume.writeWhole sink name purpose data)
      (Files.write name data) := by
  intro s files h
  obtain ⟨number, tree, hcreate, hnode, hshows⟩ := h.shows.create hgood.plain hgood.fits
  rw [← h.path_eq hgood] at hcreate
  rw [writeWhole_ok h.still_open purpose data hcreate]
  exact .ok rfl (h.withTree (hshows.writeAt hnode data))

theorem length_matches (hgood : Good root name) :
    Matches (Holds root base) Eq (volume.length name) (Files.length name) := by
  refine .get (g := fun _ => Files.length name) fun s files h => ?_
  obtain ⟨e, hfind, hmissing⟩ | ⟨number, hfind, hfound⟩ := h.find hgood
  · rw [bind_error hfind, Files.length, bind_error hmissing]
    exact .error h
  · rw [bind_ok hfind, Files.length, bind_ok hfound]
    exact .ok rfl h

theorem hasFile_matches (hgood : Good root name) :
    Matches (Holds root base) Eq (volume.hasFile name) (Files.hasFile name) := by
  refine .get fun s files h => .ok ?_ h
  have hfind := h.shows.find hgood.plain hgood.fits
  rw [← h.path_eq hgood] at hfind
  obtain ⟨hnone, hfind⟩ | ⟨number, hfind, hsome⟩ := hfind
  · rw [hasFile, hfind, hnone]
    rfl
  · rw [hasFile, hfind, hsome]
    rfl

theorem list_matches : Matches (Holds root base) Eq volume.list Files.list := by
  refine .skip (fun s files h => requireOpen_ok h.still_open) fun s files h => ?_
  have hnames := h.shows.fileNames
  rw [← h.root_eq] at hnames
  rw [ask_ok (f := fun s => s.tree.fileNames s.root) hnames]
  exact .ok rfl h

theorem volume_stores : volume.Stores feed sink (Holds root base) (Good root) where
  write name purpose data hgood := writeWhole_matches hgood purpose data
  read name purpose hgood := readWhole_matches hgood purpose
  delete name hgood := delete_matches hgood
  hasFile name hgood := hasFile_matches hgood
  length name hgood := length_matches hgood
  list := list_matches
  sync names hgood := .forM fun name hname s files h => by
    obtain ⟨e, hfind, hmissing⟩ | ⟨number, hfind, hfound⟩ := h.find (hgood name hname)
    · rw [bind_error hfind, bind_error hmissing]
      exact .error h
    · rw [bind_ok hfind, bind_ok hfound]
      exact .ok rfl h

-- The root is a directory in which there is nothing.
def Empty (s : DiskStore) : Prop :=
  ∃ place, s.tree.locate s.root = .ok place ∧ s.tree.nodeAt place = .ok .directory ∧
    ∀ name : String, s.tree.nodes[place.path ++ [name]]? = none

theorem Empty.holds (hempty : s.Empty) (hopen : s.closed = false) :
    ∃ base, s.Holds s.root base ∅ := by
  obtain ⟨place, hplace, hnode, hnone⟩ := hempty
  refine ⟨place.path, hopen, rfl, ⟨place, hplace, rfl, hnode⟩, fun name => ?_, ?_⟩
  · rw [Std.TreeMap.getElem?_emptyc]
    exact .none (hnone name)
  · intro a _ number ha
    cases (hnone a).symm.trans ha

-- From an empty directory on, a disk answers as a memory store does, and both answer as files do
-- that are reached by their names. The path of the root has room for the names.
theorem answers_as_memory (hopen : s.closed = false) (hempty : s.Empty) (stamped : Bool)
    (uses : List Use) (hnames : ∀ use ∈ uses, ∀ name ∈ use.names, Good s.root name) :
    answers (Use.run volume feed sink) s uses =
        answers (Use.run (MemoryStore.volume stamped) MemoryStore.feed MemoryStore.sink) {} uses ∧
      answers (Use.run (MemoryStore.volume stamped) MemoryStore.feed MemoryStore.sink) {} uses =
        answers Use.expected ∅ uses := by
  obtain ⟨base, hholds⟩ := hempty.holds hopen
  have hmemory : answers (Use.run (MemoryStore.volume stamped) MemoryStore.feed MemoryStore.sink) {}
      uses = answers Use.expected ∅ uses := by
    refine Matches.answers (R := MemoryStore.Holds) (fun use _ => ?_) ⟨rfl, fun name => ?_⟩
    · exact (MemoryStore.volume_stores stamped).matches use fun _ _ => trivial
    · rw [Std.TreeMap.getElem?_emptyc, Std.TreeMap.getElem?_emptyc]
      rfl
  refine ⟨Eq.trans ?_ hmemory.symm, hmemory⟩
  exact Matches.answers (fun use huse => volume_stores.matches use (hnames use huse)) hholds

theorem openAt_ok {t t' : Tree} {below : String} (hroot : join top below = root)
    (h : t.ensureDirectory root = .ok t') (label : String) :
    openAt t label below = .ok { tree := t', root, label } := by
  simp only [openAt, hroot]
  rw [Tree.makeDirectories, h]

-- A directory is made on the way in, and a file is replaced, listed, missed and deleted in it.
theorem answers_as_memory_below : ∃ s, openAt {} "/" "sub" = .ok s ∧
    let uses : List Use := [.write "b" .general ⟨#[1, 2, 3]⟩, .write "a" .general ⟨#[4]⟩,
      .write "b" .flush ⟨#[5]⟩, .read "b" .general, .list, .sync ["a", "c", "d"], .delete "a",
      .length "a", .hasFile "b"]
    answers (Use.run volume feed sink) s uses =
        answers (Use.run (MemoryStore.volume true) MemoryStore.feed MemoryStore.sink) {} uses ∧
      answers (Use.run (MemoryStore.volume true) MemoryStore.feed MemoryStore.sink) {} uses =
        answers Use.expected ∅ uses := by
  have hsub : Plain "sub" := by decide +kernel
  have hjoin : join top "sub" = ["/", "sub"] := hsub.join top
  have hmade : Tree.ensureDirectory {} ["/", "sub"] = .ok (
      { ({} : Tree) with nodes := ({} : Tree).nodes.insert ["/", "sub"] .directory }) := rfl
  refine ⟨_, openAt_ok hjoin hmade "/", ?_⟩
  refine answers_as_memory rfl ⟨.entry ["/"] "sub" false, rfl, rfl, fun name => ?_⟩ true _ ?_
  · simp only [Place.path, Maps.getElem?_insert, Std.TreeMap.getElem?_emptyc]
    simp [top]
  · decide +kernel

-- Where the path of the root has no room for a name, no file can be made under it.
theorem writeWhole_too_long (hopen : s.closed = false) (hroot : refused s.root = none)
    (hname : Plain name) (hlong : ¬Fits s.root name) (purpose : Purpose) (data : Bytes) :
    volume.writeWhole sink name purpose data s =
      .error (.error (.io (.os Errno.nameTooLong))) s := by
  have hcreate : s.tree.create (s.path name) = .error (.os Errno.nameTooLong) := by
    have hrefused := Tree.refused_append hname hroot
    rw [if_neg hlong] at hrefused
    rw [path, hname.join, Tree.create, Tree.locate, hrefused]
    rfl
  have hcreated : volume.create name purpose s = .error (.error (.io (.os Errno.nameTooLong))) s :=
    (bind_ok (requireOpen_ok hopen)).trans
      (bind_error (ask_error (f := fun s => s.tree.create (s.path name)) hcreate))
  exact bind_error hcreated

-- A path that stays at the top, however long it is.
def dots (n : Nat) : String := String.ofList ('.' :: (List.replicate n ['/', '.']).flatten)

theorem join_dots (n : Nat) : join top (dots n) = top ++ List.replicate (n + 1) "." := by
  have hparts : ('.' :: (List.replicate n ['/', '.']).flatten).foldr addChar [[]] =
      List.replicate (n + 1) ['.'] := by
    induction n with
    | zero => rfl
    | succ n ih =>
      rw [List.replicate_succ, List.flatten_cons]
      simp only [List.foldr_cons, List.cons_append, List.nil_append] at ih ⊢
      rw [ih]
      rfl
  have hhead : ¬(dots n).toList.head? = some '/' := by
    rw [dots, String.toList_ofList, List.head?_cons]
    decide
  rw [join, if_neg hhead, components, dots, String.toList_ofList, hparts, List.map_replicate]

theorem pathBytes_append (parts parts' : List String) :
    pathBytes (parts ++ parts') = pathBytes parts + pathBytes parts' := by
  induction parts with
  | nil => exact (Nat.zero_add _).symm
  | cons part rest ih =>
    simp only [pathBytes, List.cons_append, List.foldr_cons] at ih ⊢
    omega

theorem pathBytes_replicate (n : Nat) : pathBytes (List.replicate n ".") = 2 * n := by
  induction n with
  | zero => rfl
  | succ n ih =>
    have hdot : ".".utf8ByteSize = 1 := rfl
    simp only [pathBytes, List.replicate_succ, List.foldr_cons, hdot] at ih ⊢
    omega

theorem walk_dots (t : Tree) (path : Path) (n : Nat) :
    t.walk path (List.replicate n ".") = .ok (.itself path) := by
  induction n with
  | zero => rfl
  | succ n ih => rw [List.replicate_succ, Tree.walk, if_pos (by decide), ih]

theorem refused_dots {n : Nat} (h : 2 * n + 2 ≤ maxPathBytes) :
    refused (top ++ List.replicate n ".") = none := by
  have hnul : ¬(top ++ List.replicate n ".").any (·.toList.contains '\x00') = true := by
    rw [List.any_append, List.any_replicate]
    split <;> decide
  have hbytes : pathBytes (top ++ List.replicate n ".") = 2 + 2 * n := by
    rw [pathBytes_append, pathBytes_replicate]
    rfl
  rw [refused, if_neg hnul, hbytes, if_neg (by omega)]

theorem openAt_dots {n : Nat} (h : 2 * (n + 1) + 2 ≤ maxPathBytes) (label : String) :
    ∃ s, openAt {} label (dots n) = .ok s ∧ s.root = top ++ List.replicate (n + 1) "." ∧
      s.closed = false ∧ s.Empty := by
  have hlocate : Tree.locate {} (top ++ List.replicate (n + 1) ".") = .ok (.itself top) := by
    have hrest : ¬(List.replicate (n + 1) ".").all (· = "") = true := by simp
    have htop : Tree.entry? {} [] "/" = .ok (some .directory) := rfl
    rw [Tree.locate, refused_dots h]
    exact (Tree.walk_directory (by decide) (by decide) hrest htop).trans (walk_dots _ _ _)
  have hmade : Tree.ensureDirectory {} (top ++ List.replicate (n + 1) ".") = .ok {} := by
    simp only [Tree.ensureDirectory, Tree.makeDirectory, Tree.isDirectory, Tree.find, hlocate]
    rfl
  refine ⟨_, openAt_ok (join_dots n) hmade label, rfl, rfl, .itself top, hlocate, rfl, fun name => ?_⟩
  simp only [Place.path, Maps.getElem?_insert, Std.TreeMap.getElem?_emptyc]
  simp [top]

-- An empty directory and a name that an entry of it can have, but no room for the path of the file:
-- the memory store takes the file and the disk does not.
theorem answers_apart_below_dots :
    let name := String.ofList (List.replicate 255 'n')
    let uses : List Use := [.write name .general ⟨#[120]⟩]
    ∃ s, openAt {} "/" (dots 1920) = .ok s ∧ s.closed = false ∧ s.Empty ∧
      (∀ use ∈ uses, ∀ name ∈ use.names, Plain name) ∧
      answers (Use.run volume feed sink) s uses ≠
        answers (Use.run (MemoryStore.volume true) MemoryStore.feed MemoryStore.sink) {} uses := by
  intro name uses
  obtain ⟨s, hs, hroot, hopen, hempty⟩ := openAt_dots (n := 1920) (by decide) "/"
  have hbytes : name.utf8ByteSize = 255 := by decide +kernel
  have hchars : name.toList = List.replicate 255 'n' := String.toList_ofList
  have hne (short : String) (h : short.utf8ByteSize ≠ 255) : name ≠ short :=
    fun heq => h (heq ▸ hbytes)
  have hplain : Plain name := by
    refine ⟨hne _ (by decide), Nat.le_of_eq hbytes, ?_, ?_, hne _ (by decide), hne _ (by decide)⟩
    all_goals
      rw [hchars]
      decide
  have hlong : ¬Fits s.root name := by
    rw [Fits, hroot, pathBytes_append, pathBytes_append, pathBytes_replicate]
    simp only [pathBytes, List.foldr_cons, hbytes]
    decide
  have hrefused : refused s.root = none := hroot ▸ refused_dots (by decide)
  have hdisk := writeWhole_too_long hopen hrefused hplain hlong .general ⟨#[120]⟩
  have hmemory := MemoryStore.writeWhole_ok (m := {}) rfl true name .general ⟨#[120]⟩
  refine ⟨s, hs, hopen, hempty, ?_, ?_⟩
  · simpa [uses, Use.names] using hplain
  · simp only [uses, answers, outcome, Use.run, Functor.map, EStateM.map, hdisk, hmemory]
    simp

end DiskStore

end Blockwise
