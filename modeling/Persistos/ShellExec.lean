import Persistos.Cstd
import Persistos.ShellParser
import Persistos.Theory.ByteStrings

/-! `exec_shell_line` up to the point where the arguments are built: it counts the words,
allocates the array of arguments and a buffer for each word, and expands the words. -/

namespace Persistos

open Theory

/-- How the shell ends. A null pointer is where a node has no child. -/
inductive ShellStop where
  | exit (exitCode : Nat) (message : String)
  | nullPointer
  deriving DecidableEq, Repr

/-- The memory of a process and the top of its heap. -/
structure UserHeap where
  memory : ByteMemory
  heapTop : U64

def UserHeap.malloc (h : UserHeap) (size : U64) : U64 × UserHeap :=
  (h.heapTop, { h with heapTop := h.heapTop + size })

def scriptBufferLength : U64 := 400

/-- `sizeof(struct redirect_info)` -/
def redirectInfoSize : U64 := 408

/-- The node whose bytes `expand_word` copies for a fragment with this child. -/
def expandedPair (childPair : Pair) : Except ShellStop Pair :=
  if childPair.type = .unquotedString then .ok childPair
  else if childPair.type = .quotedString then
    match childPair.children with
    | [] => .error .nullPointer
    | contentPair :: _ => .ok contentPair
  else .error (.exit 2 "shell: parser assertion: unexpected pair type\n")

/-- The loop of `expand_word`. -/
def expandFragments (outBuffer : U64) :
    List Pair → U64 → ByteMemory → Except ShellStop ByteMemory
  | [], _, memory => .ok memory
  | wordFragmentPair :: l, execBufferLength, memory =>
    match wordFragmentPair.children with
    | [] => .error .nullPointer
    | childPair :: _ =>
      match expandedPair childPair with
      | .error e => .error e
      | .ok pair =>
        let pairLength := BitVec.ofNat 64 (pair.stop - pair.start)
        if execBufferLength + pairLength ≥ scriptBufferLength then
          .error (.exit 2 "shell: word is too long\n")
        else
          let memory := copyBytes memory (outBuffer + execBufferLength)
            (BitVec.ofNat 64 pair.start) pairLength.toNat
          let execBufferLength := execBufferLength + pairLength
          expandFragments outBuffer l execBufferLength
            (Function.update memory (outBuffer + (execBufferLength + 1)) 0)

def expandWord (wordPair : Pair) (outBuffer : U64) (memory : ByteMemory) :
    Except ShellStop ByteMemory :=
  expandFragments outBuffer wordPair.children 0 memory

/-- The loop that counts words and redirects. -/
def countElements : List Pair → U64 → U64 → Except ShellStop (U64 × U64)
  | [], numWords, numRedirects => .ok (numWords, numRedirects)
  | pair :: l, numWords, numRedirects =>
    if pair.type ≠ .simpleCommandElement then
      .error (.exit 2 "shell: parser assertion: expected PAIR_SIMPLE_COMMAND_ELEMENT\n")
    else
      match pair.children with
      | [] => .error .nullPointer
      | child :: _ =>
        if child.type = .word then countElements l (numWords + 1) numRedirects
        else if child.type = .redirect then countElements l numWords (numRedirects + 1)
        else countElements l numWords numRedirects

/-- `redirect_fd` of the operator at `operator`. -/
def redirectFd (memory : ByteMemory) (operator : U64) : Except ShellStop U64 :=
  let text := [memory operator, memory (operator + 1)]
  if strklcmp [lessThan, 0] text 1 = 0 then .ok 0
  else if strklcmp [greaterThan, 0] text 1 = 0 then .ok 1
  else .error (.exit 2 "shell: parser assertion: unexpected redirect operator\n")

/-- The loop that builds the arguments and the redirects. -/
def buildArgs (execArgv redirectInfos : U64) :
    List Pair → U64 → U64 → UserHeap → Except ShellStop UserHeap
  | [], _, _, heap => .ok heap
  | scePair :: l, wordIndex, redirectIndex, heap =>
    match scePair.children with
    | [] => .error .nullPointer
    | child :: _ =>
      if child.type = .word then
        let execBuffer := (heap.malloc scriptBufferLength).1
        let heap := (heap.malloc scriptBufferLength).2
        match expandWord child execBuffer heap.memory with
        | .error e => .error e
        | .ok memory =>
          buildArgs execArgv redirectInfos l (wordIndex + 1) redirectIndex
            { heap with memory := store64 memory (execArgv + 8 * wordIndex) execBuffer }
      else if child.type = .redirect then
        match child.children with
        | redirectOperator :: redirectTargetWord :: _ =>
          match redirectFd heap.memory (BitVec.ofNat 64 redirectOperator.start) with
          | .error e => .error e
          | .ok fd =>
            let redirectInfo := redirectInfos + redirectInfoSize * redirectIndex
            let memory := store64 heap.memory redirectInfo fd
            match expandWord redirectTargetWord (redirectInfo + 8) memory with
            | .error e => .error e
            | .ok memory =>
              buildArgs execArgv redirectInfos l wordIndex (redirectIndex + 1)
                { heap with memory }
        | _ => .error .nullPointer
      else .error (.exit 2 "shell: parser assertion: unexpected pair type\n")

/-- What `exec_shell_line` makes of a line before it runs a command. -/
inductive ShellLineResult where
  | syntaxError
  | noWords
  | command (execArgv numWords redirectInfos numRedirects : U64) (heap : UserHeap)

/-- The bytes that the parser reads. -/
def lineMemory (memory : ByteMemory) : Nat → U8 := fun i => memory (BitVec.ofNat 64 i)

/-- `exec_shell_line` after its call of the parser, which has left `heap`. -/
def execShellStmt (stmtResult : Pair) (start length : U64) (heap : UserHeap) :
    Except ShellStop ShellLineResult :=
  if stmtResult.stop ≠ (start + length).toNat then .ok .syntaxError
  else
    match countElements stmtResult.children 0 0 with
    | .error e => .error e
    | .ok (numWords, numRedirects) =>
      if numWords = 0 then .ok .noWords
      else
        let execArgv := (heap.malloc ((numWords + 1) * 8)).1
        let heap := (heap.malloc ((numWords + 1) * 8)).2
        let redirectInfos := (heap.malloc (numRedirects * redirectInfoSize)).1
        let heap := (heap.malloc (numRedirects * redirectInfoSize)).2
        let memory := fillBytes heap.memory redirectInfos 0
          (numRedirects * redirectInfoSize).toNat
        match buildArgs execArgv redirectInfos stmtResult.children 0 0 { heap with memory } with
        | .error e => .error e
        | .ok heap =>
          let memory := store64 heap.memory (execArgv + 8 * numWords) 0
          .ok (.command execArgv numWords redirectInfos numRedirects { heap with memory })

/-- The parser gets blocks for its nodes from the heap and writes to no other place. -/
structure ParserHeap (before after : UserHeap) : Prop where
  le : before.heapTop.toNat ≤ after.heapTop.toNat
  outside : ∀ x : U64, x.toNat < before.heapTop.toNat ∨ after.heapTop.toNat ≤ x.toNat →
    after.memory x = before.memory x

/-- `exec_shell_line` up to the point where the command is run. The parser finds the line in
`heap` and leaves `parsed`. -/
def execShellLine (start length : U64) (heap parsed : UserHeap) :
    Except ShellStop ShellLineResult :=
  execShellStmt (parseShellStmt (lineMemory heap.memory) start.toNat length.toNat) start length
    parsed

end Persistos
