/-!
# Character ranges

The code points beyond ASCII that have the Unicode properties Alphabetic, Lowercase and Uppercase,
or one of the general categories of numbers and marks, and the lowercase forms of capitals. Version
15.0 of the Unicode character database.
-/

namespace Restyle

/-- The code points from `first` to `last` in steps of `step`. -/
structure CodeRange where
  first : Nat
  last : Nat
  step : Nat
  deriving DecidableEq, Repr

namespace CodeRange

/-- The ranges of a step that runs of numbers describe from a code point on: how far away a range
begins and how far it goes, in turn. -/
def ofRuns (step : Nat) : Nat → List Nat → List CodeRange
  | code, gap :: width :: runs =>
    ⟨code + gap, code + gap + width, step⟩ :: ofRuns step (code + gap + width) runs
  | _, _ => []

def contains (range : CodeRange) (code : Nat) : Bool :=
  range.first ≤ code && code ≤ range.last && (code - range.first) % range.step == 0

def alphabetic : List CodeRange :=
  ofRuns 1 0 [
    170,0,11,0,5,0,6,22,2,30,2,457,5,11,15,4,97,0,43,4,2,1,3,3,2,0,7,0,2,2,2,0,2,19,2,82,2,138,9,
    165,2,37,3,0,7,40,40,13,2,0,2,1,2,1,2,0,9,26,5,3,30,10,6,55,2,6,15,101,2,7,5,7,5,2,11,2,3,0,17,
    47,14,100,25,32,10,1,5,0,6,23,3,18,20,24,8,10,6,23,2,5,18,41,11,11,4,6,7,75,2,15,2,2,5,14,14,
    18,2,7,3,1,3,21,2,6,2,0,4,3,4,7,3,1,3,1,2,0,9,0,5,1,2,4,13,1,11,0,5,2,2,5,5,1,3,21,2,6,2,1,2,1,
    2,1,5,4,5,1,3,1,5,0,8,3,2,0,18,5,12,2,2,8,2,2,2,21,2,6,2,1,2,4,4,8,2,2,2,1,4,0,16,3,22,3,5,2,2,
    7,3,1,3,21,2,6,2,1,2,4,4,7,3,1,3,1,10,1,5,1,2,4,14,0,17,1,2,5,4,2,2,3,4,1,2,0,2,1,4,1,4,2,4,11,
    5,4,4,2,2,2,4,0,7,0,41,12,2,2,2,22,2,15,4,7,2,2,2,2,9,1,2,2,3,0,3,3,29,3,2,7,2,2,2,22,2,9,2,4,
    4,7,2,2,2,2,9,1,7,1,2,3,14,2,13,12,2,2,2,40,3,7,2,2,2,2,2,0,6,3,8,4,23,5,2,2,2,17,4,23,2,8,2,0,
    3,6,9,5,2,0,2,7,19,1,14,57,6,6,7,0,52,1,2,0,2,4,2,23,2,0,2,18,2,2,3,4,2,0,7,0,15,3,33,0,64,7,2,
    35,5,18,5,15,2,35,68,54,2,0,3,4,17,63,11,3,3,37,2,0,6,0,3,42,2,332,2,3,3,6,2,0,2,3,3,40,2,3,3,
    32,2,3,3,6,2,0,2,3,3,14,2,56,2,3,3,66,38,15,17,85,3,5,4,619,3,16,2,25,6,74,4,10,8,19,12,20,13,
    19,13,12,2,2,2,1,13,51,3,18,15,0,5,0,68,88,8,42,6,69,11,30,2,11,5,8,24,29,3,4,12,43,5,25,55,27,
    5,62,3,19,51,0,24,1,12,2,50,51,2,14,2,7,52,41,3,3,11,43,2,10,15,54,23,2,11,35,3,8,8,42,3,2,42,
    3,2,5,2,1,4,0,6,191,40,13,12,277,3,5,3,37,3,5,3,7,8,30,3,52,2,6,2,0,4,2,2,6,4,3,3,5,5,12,6,2,2,
    6,117,0,14,0,17,12,102,0,5,0,3,9,2,0,4,4,13,3,2,10,3,3,6,4,5,0,18,40,814,51,1815,228,7,3,4,1,
    13,37,2,0,6,0,3,55,8,0,17,22,10,6,2,6,2,6,2,6,2,6,2,6,2,6,2,6,2,31,48,0,470,2,26,8,8,4,3,4,5,
    85,7,2,2,89,2,3,6,42,2,93,18,31,49,15,513,6591,65,22156,68,45,3,268,4,15,11,1,21,46,6,7,4,112,
    40,8,3,102,3,63,6,1,2,0,2,4,25,19,2,32,25,51,13,67,2,0,45,5,4,0,2,2,11,32,6,34,14,28,4,50,2,11,
    16,0,17,15,11,4,2,54,10,13,19,22,4,68,29,2,3,15,3,3,12,5,3,5,3,5,10,6,2,6,2,42,2,13,7,122,22,
    11171,13,22,5,48,8453,365,3,105,39,6,13,4,6,11,2,12,2,4,2,0,2,1,2,1,2,107,34,362,19,63,3,53,41,
    11,117,4,2,134,37,25,7,25,12,88,4,5,3,5,3,5,3,2,36,11,2,25,2,18,2,1,2,14,3,13,35,122,70,52,268,
    28,4,48,48,31,14,29,6,42,6,29,3,35,5,7,2,4,43,157,19,35,5,35,5,39,9,51,13,10,2,14,2,6,2,1,2,10,
    2,14,2,6,2,1,68,310,10,21,11,7,25,5,2,41,2,8,70,5,3,0,2,43,2,1,4,0,3,22,11,22,10,30,66,18,2,1,
    11,21,11,25,71,55,7,1,65,3,2,1,6,7,2,2,2,28,43,28,4,28,36,7,2,27,28,53,11,21,11,18,14,17,111,
    72,56,50,14,50,14,39,345,41,2,1,4,1,79,28,11,0,9,21,43,17,47,20,28,22,10,69,44,4,11,56,10,0,14,
    24,24,50,18,3,9,34,4,0,10,63,2,3,10,1,49,17,2,33,3,0,7,3,63,6,2,0,2,3,2,14,2,9,8,56,24,3,2,7,3,
    1,3,21,2,6,2,1,2,4,4,7,3,1,3,1,4,0,7,0,6,6,157,65,2,2,2,3,21,2,31,65,3,1,2,0,185,53,3,6,26,5,
    35,62,2,0,4,0,60,53,3,0,72,26,3,13,22,6,186,56,104,63,32,7,3,0,3,7,2,1,2,29,2,1,3,1,3,3,94,7,3,
    45,3,5,2,0,2,1,28,50,3,9,18,71,6,0,19,72,264,8,2,44,2,6,2,0,50,29,3,21,2,13,74,6,2,1,2,43,4,0,
    2,1,2,2,2,0,3,1,25,5,2,1,2,36,2,1,2,3,2,0,328,22,10,16,2,40,4,2,112,0,80,921,103,110,18,195,
    2637,96,16,1071,18,5,4026,582,8634,568,8,30,18,78,18,29,19,47,17,3,32,20,6,18,689,63,129,74,5,
    56,8,16,65,1,2,0,13,1,15,6135,9,1237,43,8,8936,3,2,6,2,1,2,290,16,0,30,2,3,0,15,3,9,395,2309,
    106,6,12,4,8,8,9,5,0,5986,84,2,70,2,1,3,0,3,1,3,3,2,11,2,0,2,6,2,64,2,3,3,7,2,6,2,27,2,3,2,4,2,
    0,4,6,2,339,3,24,2,24,2,30,2,24,2,30,2,24,2,30,2,24,2,30,2,24,2,7,1845,30,7,5,214,6,2,16,3,6,2,
    1,2,4,6,61,34,0,113,44,11,6,17,0,322,29,19,43,485,27,757,6,2,3,2,1,2,14,2,196,60,67,4,0,4,0,
    1205,3,2,26,2,1,2,0,3,0,2,9,2,3,11,0,11,2,2,1,2,0,13,1,2,0,3,3,2,6,2,3,2,3,2,0,2,9,2,16,6,2,2,
    4,2,16,629,25,7,25,7,25,3703,42719,33,4153,7,221,3,5761,15,7472,3104,541,1507,4938,6,4191] ++
  ofRuns 2 0 [
    748,2,7275,4,455,4,35224,2,26392,2,56413,2,12,4,12,8]

/-- The code points of the category Decimal_Number. -/
def decimalDigits : List CodeRange :=
  ofRuns 1 0 [
    1632,9,135,9,199,9,413,9,119,9,119,9,119,9,119,9,119,9,119,9,119,9,119,9,119,9,97,9,119,9,71,9,
    279,9,71,9,1863,9,39,9,301,9,129,9,167,9,7,9,183,9,87,9,135,9,7,9,35271,9,679,9,39,9,199,9,23,
    9,87,9,407,9,21271,9,1415,9,2183,9,813,9,129,9,61,9,145,9,279,9,343,9,119,9,375,9,103,9,103,9,
    423,9,103,9,759,9,247,9,71,9,423,9,19207,9,87,9,135,9,27765,49,2369,9,423,9,503,9,1111,9,4759,9]

/-- The code points of the category Other_Number. -/
def otherNumbers : List CodeRange :=
  ofRuns 1 0 [
    178,1,6,0,3,2,2358,5,377,5,121,2,134,6,218,6,18,8,434,9,1078,19,1140,9,481,0,1686,0,4,5,7,9,
    199,15,42,0,727,59,79,21,631,29,1386,0,1173,3,139,9,31,7,2,14,33,9,40,14,30065,5,22738,44,66,3,
    18,1,342,26,37,3,1333,7,26,6,40,8,76,4,23,5,161,1,3,15,3,45,65,8,53,1,31,2,76,4,105,7,25,7,42,
    6,331,5,353,30,159,9,43,3,113,6,135,19,380,19,1350,1,431,8,872,18,852,20,19335,6,799,22,25642,
    19,13,19,109,24,5455,8,930,58,2,2,2,3,77,44,2,14,963,12]

def lowercase : List CodeRange :=
  ofRuns 1 0 [
    170,0,11,0,5,0,37,23,2,7,56,1,16,1,53,2,8,0,4,1,5,0,3,0,4,2,3,0,10,0,2,1,2,0,3,0,9,1,3,2,7,0,3,
    0,19,1,18,1,67,6,3,0,3,1,2,0,13,68,2,35,8,1,31,4,97,0,50,0,3,3,19,0,28,34,2,1,4,2,24,4,2,0,3,0,
    3,1,52,47,111,1,145,40,2888,42,2,3,761,5,2179,8,120,191,214,8,98,8,9,5,11,7,9,7,9,5,11,7,9,7,9,
    13,3,7,9,7,9,7,9,4,2,1,7,0,4,2,2,1,9,3,3,1,9,7,11,2,2,1,122,0,14,0,17,12,110,0,4,1,4,0,28,0,5,
    0,5,0,3,1,9,3,5,0,34,15,5,0,844,25,1863,47,2,0,4,1,11,0,2,1,2,7,102,1,15,0,13,37,2,0,6,0,31086,
    2,146,2,62,9,25,0,2,2,26,0,67,2,2,0,2,2,822,42,2,13,7,79,20289,6,13,4,1066,25,1230,39,137,35,
    156,10,2,14,2,6,2,1,452,0,3,2,2,41,2,8,1286,50,3022,31,21889,31,26011,25,27,6,2,17,27,25,27,3,
    2,0,2,6,2,10,27,25,27,25,27,25,27,25,27,25,27,25,27,25,27,25,27,27,29,24,2,5,27,24,2,5,27,24,2,
    5,27,24,2,5,27,24,2,5,2,0,1845,9,2,19,7,5,262,61,2229,33] ++
  ofRuns 2 0 [
    257,52,5,12,5,44,3,2,7,2,28,4,15,2,22,14,5,14,6,2,4,56,22,6,292,2,102,20,116,32,10,52,3,10,5,
    94,6354,146,12,94,3435,4,21,96,11,2,31059,44,20,24,138,10,6,58,13,2,3,8,5,2,9,18,12,14,5,2,7,8]

def uppercase : List CodeRange :=
  ofRuns 1 0 [
    192,22,2,6,154,1,8,1,2,0,2,1,2,2,3,3,2,1,2,2,4,1,2,1,6,1,2,0,3,0,2,1,2,2,2,0,2,1,4,0,8,0,3,0,3,
    0,39,0,3,0,2,2,66,1,2,1,3,0,2,3,304,0,9,0,7,0,2,2,2,0,2,1,2,16,2,8,36,0,3,2,32,0,3,0,2,1,3,50,
    145,1,112,37,2890,37,2,0,6,0,723,85,2203,42,3,2,585,7,9,5,11,7,9,7,9,5,27,7,73,3,13,3,13,3,13,
    4,12,3,263,0,5,0,4,2,3,2,3,0,4,4,13,3,3,3,11,1,6,0,27,15,20,0,819,25,1841,47,49,0,2,2,9,3,2,0,
    3,0,9,2,114,0,31371,1,44,4,2,4,16,3,2,0,7,0,37,0,22316,25,1222,39,137,35,157,10,2,14,2,6,2,1,
    1771,50,3054,31,21889,31,26017,25,27,25,27,25,27,0,2,1,3,0,3,1,3,3,2,7,27,25,27,1,2,3,3,7,2,6,
    28,1,2,3,2,4,2,0,4,6,28,25,27,25,27,25,27,25,27,25,27,25,31,24,34,24,34,24,34,24,34,24,34,0,
    4406,33,2063,25,7,25,7,25] ++
  ofRuns 2 0 [
    256,54,3,14,3,44,5,2,37,2,41,14,3,16,12,56,22,6,290,2,102,22,114,32,10,52,5,10,3,94,6354,148,
    10,96,91,6,453,4,2879,4,23,96,9,2,31059,44,20,26,136,12,4,60,11,2,5,6,5,2,3,2,4,18,14,12,20,2]

/-- The code points of the category Mark that are not alphabetic. -/
def marks : List CodeRange :=
  ofRuns 1 0 [
    768,68,2,41,276,6,264,30,169,0,135,1,10,2,84,10,161,8,10,0,27,1,20,0,44,2,61,7,43,9,13,1,9,5,
    77,0,17,0,4,3,104,0,17,0,49,0,62,0,17,0,111,0,17,0,48,2,61,0,17,0,8,0,120,0,111,0,17,0,111,0,
    17,0,110,1,17,0,125,0,125,5,2,0,108,0,14,4,2,0,74,1,37,1,69,0,2,1,63,0,113,0,2,1,803,2,949,1,
    31,0,128,1,20,10,10,0,46,2,2,0,298,2,293,0,21,7,3,0,49,14,3,10,105,0,16,0,39,8,55,1,59,0,12,1,
    68,0,153,2,2,20,5,0,7,0,3,2,199,38,15,10,721,32,3071,2,142,0,683,5,106,1,30165,3,10,1,115,1,
    277,0,38,0,152,0,28,17,58,2,38,0,96,0,13,0,310,0,246,1,21011,15,17,15,974,0,227,0,1880,2,5,0,
    166,1,1047,2,71,10,50,3,193,0,42,0,15,0,58,1,121,1,63,0,77,0,9,3,105,1,179,1,81,1,17,0,25,6,4,
    4,206,0,4,0,24,0,100,1,252,1,127,0,119,1,116,0,270,1,259,1,5,0,157,0,83,1,19,0,81,1,422,0,259,
    0,2,1,82,0,426,1,5374,0,7,14,13979,4,60,6,1198,0,19641,0,4707,45,3,22,543,4,4,5,9,7,3,6,31,3,
    149,2,1980,54,5,49,9,0,15,0,23,4,2,14,1665,6,376,0,62,3,509,3,993,6,110,2,2,2,792502,239] ++
  ofRuns 2 0 [
    3893,4,39814,2]

/-- The code points of the category Connector_Punctuation and of the property Join_Control. -/
def connectors : List CodeRange :=
  ofRuns 1 0 [
    8204,1,50,1,20,0,56799,1,25,2,240,0]

/-- The code points of the category Format. -/
def formats : List CodeRange :=
  ofRuns 1 0 [
    173,0,1363,5,23,0,193,0,50,0,385,1,81,0,3884,0,2045,4,27,4,50,4,2,9,56976,0,250,2,4290,0,16,0,
    9059,15,34913,3,5328,7,798343,0,31,95]

/-- The ranges of code points that have a lowercase form of one character, each with the form of its
first code point. The forms of a range are as far apart as its code points, and most capitals stand
right before their forms. -/
def lowercaseForms : List (CodeRange × Nat) :=
  (ofRuns 2 0 [
    256,46,4,4,3,14,3,44,3,4,5,2,3,0,4,0,6,0,7,0,8,4,3,0,5,0,3,0,4,2,3,0,4,0,9,0,3,0,3,16,3,16,4,2,
    4,38,4,16,9,0,6,0,5,8,290,2,4,0,98,22,9,0,3,0,102,32,10,52,3,12,3,94,6354,148,12,94,645,0,2781,
    0,7,4,7,0,3,0,11,98,9,2,5,0,31054,44,20,26,136,12,4,60,11,2,3,8,5,0,5,2,4,18,12,14,5,2,7,0,6,2,
    29,0]).map
      (fun range => (range, range.first + 1)) ++
  (⟨0x1F59, 0x1F5F, 2⟩, 0x1F51) :: [
    (0xC0, 22, 0xE0), (0xD8, 6, 0xF8), (0x178, 0, 0xFF), (0x181, 0, 0x253), (0x186, 0, 0x254),
    (0x189, 1, 0x256), (0x18E, 0, 0x1DD), (0x18F, 0, 0x259), (0x190, 0, 0x25B),
    (0x193, 0, 0x260), (0x194, 0, 0x263), (0x196, 0, 0x269), (0x197, 0, 0x268),
    (0x19C, 0, 0x26F), (0x19D, 0, 0x272), (0x19F, 0, 0x275), (0x1A6, 0, 0x280),
    (0x1A9, 0, 0x283), (0x1AE, 0, 0x288), (0x1B1, 1, 0x28A), (0x1B7, 0, 0x292),
    (0x1C4, 0, 0x1C6), (0x1C7, 0, 0x1C9), (0x1CA, 0, 0x1CC), (0x1F1, 0, 0x1F3),
    (0x1F6, 0, 0x195), (0x1F7, 0, 0x1BF), (0x220, 0, 0x19E), (0x23A, 0, 0x2C65),
    (0x23D, 0, 0x19A), (0x23E, 0, 0x2C66), (0x243, 0, 0x180), (0x244, 0, 0x289),
    (0x245, 0, 0x28C), (0x37F, 0, 0x3F3), (0x386, 0, 0x3AC), (0x388, 2, 0x3AD),
    (0x38C, 0, 0x3CC), (0x38E, 1, 0x3CD), (0x391, 16, 0x3B1), (0x3A3, 8, 0x3C3),
    (0x3CF, 0, 0x3D7), (0x3F4, 0, 0x3B8), (0x3F9, 0, 0x3F2), (0x3FD, 2, 0x37B),
    (0x400, 15, 0x450), (0x410, 31, 0x430), (0x4C0, 0, 0x4CF), (0x531, 37, 0x561),
    (0x10A0, 37, 0x2D00), (0x10C7, 0, 0x2D27), (0x10CD, 0, 0x2D2D), (0x13A0, 79, 0xAB70),
    (0x13F0, 5, 0x13F8), (0x1C90, 42, 0x10D0), (0x1CBD, 2, 0x10FD), (0x1E9E, 0, 0xDF),
    (0x1F08, 7, 0x1F00), (0x1F18, 5, 0x1F10), (0x1F28, 7, 0x1F20), (0x1F38, 7, 0x1F30),
    (0x1F48, 5, 0x1F40), (0x1F68, 7, 0x1F60), (0x1F88, 7, 0x1F80), (0x1F98, 7, 0x1F90),
    (0x1FA8, 7, 0x1FA0), (0x1FB8, 1, 0x1FB0), (0x1FBA, 1, 0x1F70), (0x1FBC, 0, 0x1FB3),
    (0x1FC8, 3, 0x1F72), (0x1FCC, 0, 0x1FC3), (0x1FD8, 1, 0x1FD0), (0x1FDA, 1, 0x1F76),
    (0x1FE8, 1, 0x1FE0), (0x1FEA, 1, 0x1F7A), (0x1FEC, 0, 0x1FE5), (0x1FF8, 1, 0x1F78),
    (0x1FFA, 1, 0x1F7C), (0x1FFC, 0, 0x1FF3), (0x2126, 0, 0x3C9), (0x212A, 0, 0x6B),
    (0x212B, 0, 0xE5), (0x2132, 0, 0x214E), (0x2160, 15, 0x2170), (0x24B6, 25, 0x24D0),
    (0x2C00, 47, 0x2C30), (0x2C62, 0, 0x26B), (0x2C63, 0, 0x1D7D), (0x2C64, 0, 0x27D),
    (0x2C6D, 0, 0x251), (0x2C6E, 0, 0x271), (0x2C6F, 0, 0x250), (0x2C70, 0, 0x252),
    (0x2C7E, 1, 0x23F), (0xA77D, 0, 0x1D79), (0xA78D, 0, 0x265), (0xA7AA, 0, 0x266),
    (0xA7AB, 0, 0x25C), (0xA7AC, 0, 0x261), (0xA7AD, 0, 0x26C), (0xA7AE, 0, 0x26A),
    (0xA7B0, 0, 0x29E), (0xA7B1, 0, 0x287), (0xA7B2, 0, 0x29D), (0xA7B3, 0, 0xAB53),
    (0xA7C4, 0, 0xA794), (0xA7C5, 0, 0x282), (0xA7C6, 0, 0x1D8E), (0xFF21, 25, 0xFF41),
    (0x10400, 39, 0x10428), (0x104B0, 35, 0x104D8), (0x10570, 10, 0x10597),
    (0x1057C, 14, 0x105A3), (0x1058C, 6, 0x105B3), (0x10594, 1, 0x105BB),
    (0x10C80, 50, 0x10CC0), (0x118A0, 31, 0x118C0), (0x16E40, 31, 0x16E60),
    (0x1E900, 33, 0x1E922)].map
      fun (first, width, form) => (⟨first, first + width, 1⟩, form)

end CodeRange

end Restyle
