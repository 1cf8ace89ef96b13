import LogOrigin.Files.Basic

-- The lines of files that may hold bytes that are no text.

namespace LogOrigin

namespace Files

def decode? (b : List UInt8) : Option Text :=
  (String.fromUTF8? ⟨b.toArray⟩).map String.toList

-- The bytes of a line without the carriage return that belongs to its line feed; the line is given
-- reversed.
def chomp : List UInt8 → List UInt8
  | 13 :: l => l.reverse
  | l       => l.reverse

-- The lines of bytes up to the first one that is no text.
def readableLines (b : ByteArray) : List Text :=
  go [] b.toList
where
  go (acc : List UInt8) : List UInt8 → List Text
    | []     => if acc.isEmpty then [] else (decode? acc.reverse).toList
    | b :: r =>
      if b = 10 then
        match decode? (chomp acc) with
        | some l => l :: go [] r
        | none   => []
      else
        go (b :: acc) r

-- The first line of the file that a path leads to.
def firstLine? (fs : Files) (p : FilePath) : Option Text :=
  match fs.find p with
  | .ok (.file b) => (readableLines b).head?
  | _             => none

end Files

end LogOrigin
