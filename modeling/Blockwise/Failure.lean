namespace Blockwise

-- Where an I/O error came from: an error number of the system, or a text of its own.
inductive IoCause where
  | os (code : Nat)
  | notFound (text : String)
  | other (text : String)
  deriving DecidableEq, Repr

namespace IoCause

-- Error number 2 is "no such file or directory".
def isNotFound : IoCause → Bool
  | os code => code == 2
  | notFound _ => true
  | other _ => false

def message : IoCause → String
  | os code => "os error " ++ toString code
  | notFound text => text
  | other text => text

end IoCause

-- What a storage was asked for and does not have.
inductive Shortfall where
  | stampSwitchedOff (name : String)
  | stampUnknown (name : String)
  | locking (name : String)
  | cachingWithoutStamps (directory : String)
  | other (text : String)
  deriving DecidableEq, Repr

def Shortfall.message : Shortfall → String
  | stampSwitchedOff name => "file_modified(" ++ name ++ ") on a memory storage without timestamps"
  | stampUnknown name => "file_modified(" ++ name ++ ") on a backend without modification times"
  | locking name => "locking " ++ name
  | cachingWithoutStamps directory =>
    "block caching for " ++ directory ++ " needs a storage backend with file modification times"
  | other text => text

-- Why a sizing cannot be used.
inductive SizingFault where
  | zeroFields (names : List String)
  | blockAboveSlab (blockSize slabSize : Nat)
  | totalBelowSlab (totalMemory slabSize : Nat)
  | tooFewBlocks
  | blockBelowGrid (blockSize gridSize : Nat)
  | other (text : String)
  deriving DecidableEq, Repr

def SizingFault.message : SizingFault → String
  | zeroFields names => "out of range: " ++ ",".intercalate names
  | blockAboveSlab blockSize slabSize =>
    "block_size " ++ toString blockSize ++ " exceeds slab_size " ++ toString slabSize
  | totalBelowSlab totalMemory slabSize =>
    "total_memory " ++ toString totalMemory ++ " is smaller than one slab (" ++
      toString slabSize ++ ")"
  | tooFewBlocks => "cache must hold at least two blocks"
  | blockBelowGrid blockSize gridSize =>
    "block cache block size " ++ toString blockSize ++
      " is smaller than the directory block size " ++ toString gridSize
  | other text => text

-- An answer that a caller handles.
inductive StorageError where
  | io (cause : IoCause)
  | fileNotFound (name : String)
  | fileAlreadyExists (name : String)
  | readPastEof (name : String) (position length : Nat)
  | unsupported (what : Shortfall)
  | invalidConfig (fault : SizingFault)
  | configParse (text : String)
  | lockHeld (name : String)
  | closed (name : String)
  deriving DecidableEq, Repr

namespace StorageError

def message : StorageError → String
  | io cause => "I/O error: " ++ cause.message
  | fileNotFound name => "File not found: " ++ name
  | fileAlreadyExists name => "File already exists: " ++ name
  | readPastEof name position length =>
    "Read past EOF: " ++ name ++ " (position " ++ toString position ++ ", length " ++
      toString length ++ ")"
  | unsupported what => "Not supported: " ++ what.message
  | invalidConfig fault => "Invalid configuration: " ++ fault.message
  | configParse text => "Configuration parse error: " ++ text
  | lockHeld name => "Lock already held: " ++ name
  | closed name => "Storage is closed: " ++ name

-- A file that is not there (any more), whichever layer noticed it.
def isNotFound : StorageError → Bool
  | fileNotFound _ => true
  | io cause => cause.isNotFound
  | _ => false

end StorageError

-- A broken contract, which ends what is under way.
inductive Breach where
  | storeTooLong (blockSize length offset : Nat)
  | fetchTooLong (blockSize length offset : Nat)
  | wrongBufferSize (blockSize length : Nat)
  | bankWrite (offset length bank : Nat)
  | bankRead (offset length bank : Nat)
  | indexOutOfBounds (length index : Nat)
  | sliceOutOfRange (start stop length : Nat)
  | divisionByZero
  | additionOverflow
  | subtractionOverflow
  | multiplicationOverflow
  | blockOutOfBank
  | writePastBlock
  | readPastBlock
  | capacityOverflow
  | tableOverflow
  deriving DecidableEq, Repr

namespace Breach

def message : Breach → String
  | storeTooLong blockSize length offset =>
    "Buffer size exceeded, expecting max [" ++ toString blockSize ++ "] got length [" ++
      toString length ++ "] with block offset [" ++ toString offset ++ "]"
  | fetchTooLong blockSize length offset =>
    "Fetch out of block, expecting max [" ++ toString blockSize ++ "] got length [" ++
      toString length ++ "] with block offset [" ++ toString offset ++ "]"
  | wrongBufferSize blockSize length =>
    "Buffer wrong size, expecting [" ++ toString blockSize ++ "] got [" ++ toString length ++ "]"
  | bankWrite offset length bank =>
    "bank write out of range: offset " ++ toString offset ++ " len " ++ toString length ++
      " bank " ++ toString bank
  | bankRead offset length bank =>
    "bank read out of range: offset " ++ toString offset ++ " len " ++ toString length ++
      " bank " ++ toString bank
  | indexOutOfBounds length index =>
    "index out of bounds: the len is " ++ toString length ++ " but the index is " ++ toString index
  | sliceOutOfRange start stop length =>
    "range " ++ toString start ++ ".." ++ toString stop ++ " out of range for slice of length " ++
      toString length
  | divisionByZero => "attempt to divide by zero"
  | additionOverflow => "attempt to add with overflow"
  | subtractionOverflow => "attempt to subtract with overflow"
  | multiplicationOverflow => "attempt to multiply with overflow"
  | blockOutOfBank => "assertion failed: block < self.blocks_per_bank"
  | writePastBlock => "assertion failed: block_offset + data.len() <= self.block_size"
  | readPastBlock => "assertion failed: block_offset + out.len() <= self.block_size"
  | capacityOverflow => "capacity overflow"
  | tableOverflow => "Hash table capacity overflow"

-- The element at an index that has to be in range.
def elementAt {α : Type} (xs : List α) (i : Nat) : Except Breach α :=
  match xs[i]? with
  | some a => .ok a
  | none => .error (.indexOutOfBounds xs.length i)

end Breach

-- A call that does not answer ends in one of the two.
inductive Failure where
  | error (e : StorageError)
  | breach (b : Breach)
  deriving DecidableEq, Repr

namespace Failure

def message : Failure → String
  | error e => e.message
  | breach b => b.message

end Failure

end Blockwise
